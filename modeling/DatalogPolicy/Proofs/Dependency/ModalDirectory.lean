import DatalogPolicy.Dependency.ModalDirectory
import DatalogPolicy.Proofs.Dependency.Undo
import DatalogPolicy.Proofs.OrderedList

/-!
# Modal directories are multisets

Whatever directories are made of others, no table is stored with a count of zero and no
modal without tables. Such a directory is determined by its counts: it is the modal index
with these counts, laid out modal by modal, and its operations, which go one reference at
a time, are those of the index. So adding a directory can be taken back, and so can taking
away one that is contained.
-/

namespace DatalogPolicy

namespace Counts

variable {α : Type} [Ord α] [Std.TransOrd α] [Std.LawfulEqOrd α] [DecidableEq α]

/-- Where no count is zero, each can be lessened. -/
theorem Positive.decrement? {held : Counts α} (h : held.Positive) (x : α) :
    held.decrement? x = some (held.remove x 1) := by
  by_cases hx : x ∈ held
  · have hget : held[x]? = some (held.count x) := Std.ExtTreeMap.getElem?_eq_some_getD hx
    have hpos := h x hx
    rw [Counts.decrement?, hget]
    match hn : held.count x with
    | 0 => omega
    | 1 => rw [remove_of_le (Nat.le_of_eq hn)]
    | n + 2 => rw [remove_of_lt (by omega), hn]; rfl
  · have hremoved : held.remove x 1 = held := by
      refine (h.remove 1).ext h fun y => ?_
      rw [count_remove]
      split
      · next hxy => rw [← hxy, count_eq_zero_of_not_mem hx]
      · rfl
    rw [Counts.decrement?, Std.ExtTreeMap.getElem?_eq_none hx, hremoved]

/-- A list of counted items in increasing order is that of the collection which it makes. -/
theorem toList_ofList {l : List (α × Nat)} (h : l.Pairwise fun p q => compare p.1 q.1 = .lt) :
    Std.ExtTreeMap.toList (Std.ExtTreeMap.ofList l : Counts α) = l := by
  have hdistinct : l.Pairwise fun p q => ¬ compare p.1 q.1 = .eq :=
    h.imp fun hlt heq => by rw [hlt] at heq; contradiction
  have hmade : OrderedList.Increasing (compareOn Prod.fst)
      (Std.ExtTreeMap.toList (Std.ExtTreeMap.ofList l : Counts α)) :=
    Std.ExtTreeMap.ordered_keys_toList
  refine hmade.ext h fun (x, n) => ?_
  rw [Std.ExtTreeMap.mem_toList_iff_getElem?_eq_some]
  constructor
  · intro hget
    have hx : x ∈ (Std.ExtTreeMap.ofList l : Counts α) :=
      Std.ExtTreeMap.mem_iff_isSome_getElem?.2 (by rw [hget]; rfl)
    rw [Std.ExtTreeMap.mem_ofList, List.contains_iff_mem, List.mem_map] at hx
    obtain ⟨p, hp, rfl⟩ := hx
    rw [Std.ExtTreeMap.getElem?_ofList_of_mem Std.ReflCmp.compare_self hdistinct hp] at hget
    rwa [← Option.some.inj hget]
  · exact Std.ExtTreeMap.getElem?_ofList_of_mem Std.ReflCmp.compare_self hdistinct

end Counts

namespace ModalTable

theorem eq_iff {p q : ModalTable} : p = q ↔ p.modal = q.modal ∧ p.table = q.table := by
  cases p
  cases q
  rw [mk.injEq]

theorem compare_of_modal {p q : ModalTable} (h : compare p.modal q.modal = .lt) :
    compare p q = .lt := by
  show (compare p.modal q.modal).then (compare p.table q.table) = .lt
  rw [h]
  rfl

theorem compare_tables (modal s t : String) : compare (mk modal s) ⟨modal, t⟩ = compare s t := by
  show (compare modal modal).then (compare s t) = compare s t
  rw [Std.ReflOrd.compare_self]
  rfl

end ModalTable

namespace ModalDirectory

variable {d a b r : ModalDirectory} {entry : ModalTable} {n : Nat}

/-- No table is stored with a count of zero, and no modal without tables. -/
structure Canonical (d : ModalDirectory) : Prop where
  positive {modal : String} {tables : Counts String} (h : d.byModal[modal]? = some tables) :
    tables.Positive
  nonempty {modal : String} {tables : Counts String} (h : d.byModal[modal]? = some tables) :
    tables ≠ ∅

section Entries

theorem under_eq_of_getElem? {modal : String} {tables : Counts String}
    (h : d.byModal[modal]? = some tables) : d.under modal = tables := by
  rw [under, Std.ExtTreeMap.getD_eq_getD_getElem?, h]
  rfl

theorem under_eq_empty_of_getElem? {modal : String} (h : d.byModal[modal]? = none) :
    d.under modal = ∅ := by
  rw [under, Std.ExtTreeMap.getD_eq_getD_getElem?, h]
  rfl

theorem mem_entries : (entry, n) ∈ d.entries ↔ (d.under entry.modal)[entry.table]? = some n := by
  simp only [entries, List.mem_flatMap, List.mem_map, Prod.exists,
    Std.ExtTreeMap.mem_toList_iff_getElem?_eq_some]
  constructor
  · rintro ⟨modal, tables, hmodal, table, k, htable, heq⟩
    obtain ⟨rfl, rfl⟩ := Prod.mk.inj heq
    rwa [under_eq_of_getElem? hmodal]
  · intro h
    match hmodal : d.byModal[entry.modal]? with
    | none =>
        rw [under_eq_empty_of_getElem? hmodal, Std.ExtTreeMap.getElem?_empty] at h
        contradiction
    | some tables =>
        rw [under_eq_of_getElem? hmodal] at h
        exact ⟨_, tables, hmodal, _, n, h, rfl⟩

/-- Modal after modal is the order of the entries. -/
theorem ordered_entries (d : ModalDirectory) :
    d.entries.Pairwise fun p q => compare p.1 q.1 = .lt := by
  rw [entries, List.pairwise_flatMap]
  constructor
  · intro (modal, tables) _
    rw [List.pairwise_map]
    exact Std.ExtTreeMap.ordered_keys_toList.imp (ModalTable.compare_tables modal _ _).trans
  · refine Std.ExtTreeMap.ordered_keys_toList.imp fun hlt p hp q hq => ?_
    obtain ⟨_, _, rfl⟩ := List.mem_map.1 hp
    obtain ⟨_, _, rfl⟩ := List.mem_map.1 hq
    exact ModalTable.compare_of_modal hlt

/-- The entries of a directory are those of its index. -/
theorem toList_index (d : ModalDirectory) : d.index.counts.toList = d.entries :=
  Counts.toList_ofList d.ordered_entries

theorem getElem?_index (d : ModalDirectory) (entry : ModalTable) :
    d.index.counts[entry]? = (d.under entry.modal)[entry.table]? := by
  refine Option.ext fun n => ?_
  rw [← mem_entries, ← toList_index, Std.ExtTreeMap.mem_toList_iff_getElem?_eq_some]

@[simp] theorem count_index (d : ModalDirectory) (entry : ModalTable) :
    d.index.count entry = d.count entry := by
  rw [ModalIndex.count, Counts.count, Std.ExtTreeMap.getD_eq_getD_getElem?, getElem?_index,
    ← Std.ExtTreeMap.getD_eq_getD_getElem?]
  rfl

end Entries

section Stored

theorem getElem?_add (d : ModalDirectory) (entry : ModalTable) (modal : String) :
    (d.add entry).byModal[modal]? =
      if entry.modal = modal then some ((d.under entry.modal).add entry.table 1)
      else d.byModal[modal]? := by
  simp only [add, Std.ExtTreeMap.getElem?_insert, Std.LawfulEqOrd.compare_eq_iff_eq]

theorem under_add (d : ModalDirectory) (entry : ModalTable) (modal : String) :
    (d.add entry).under modal =
      if entry.modal = modal then (d.under entry.modal).add entry.table 1 else d.under modal := by
  simp only [under, add, Std.ExtTreeMap.getD_insert, Std.LawfulEqOrd.compare_eq_iff_eq]

theorem getElem?_store (d : ModalDirectory) (modal other : String) (tables : Counts String) :
    (d.store modal tables).byModal[other]? =
      if modal = other then if tables = ∅ then none else some tables else d.byModal[other]? := by
  rw [store]
  split
  · next h =>
      rw [if_pos (Std.ExtTreeMap.isEmpty_iff.1 h)]
      simp only [Std.ExtTreeMap.getElem?_erase, Std.LawfulEqOrd.compare_eq_iff_eq]
  · next h =>
      rw [if_neg (mt Std.ExtTreeMap.isEmpty_iff.2 h)]
      simp only [Std.ExtTreeMap.getElem?_insert, Std.LawfulEqOrd.compare_eq_iff_eq]

theorem under_store (d : ModalDirectory) (modal other : String) (tables : Counts String) :
    (d.store modal tables).under other = if modal = other then tables else d.under other := by
  rw [under, Std.ExtTreeMap.getD_eq_getD_getElem?, getElem?_store]
  split
  · split
    · next h => exact h.symm
    · rfl
  · exact Std.ExtTreeMap.getD_eq_getD_getElem?.symm

@[simp] theorem count_add (d : ModalDirectory) (entry other : ModalTable) :
    (d.add entry).count other = d.count other + if entry = other then 1 else 0 := by
  rw [count, count, under_add]
  split
  · next h => simp only [Counts.count_add, ModalTable.eq_iff, h, true_and]
  · next h => simp only [ModalTable.eq_iff, h, false_and, if_false, Nat.add_zero]

theorem count_store_remove (d : ModalDirectory) (entry other : ModalTable) :
    (d.store entry.modal ((d.under entry.modal).remove entry.table 1)).count other =
      d.count other - if entry = other then 1 else 0 := by
  rw [count, count, under_store]
  split
  · next h => simp only [Counts.count_remove, ModalTable.eq_iff, h, true_and]
  · next h => simp only [ModalTable.eq_iff, h, false_and, if_false, Nat.sub_zero]

theorem count_addTimes (d : ModalDirectory) (entry other : ModalTable) (n : Nat) :
    (d.addTimes entry n).count other = d.count other + if entry = other then n else 0 := by
  induction n generalizing d with
  | zero => rw [addTimes, ite_self, Nat.add_zero]
  | succ n ih =>
      rw [addTimes, ih, count_add]
      split <;> omega

end Stored

namespace Canonical

theorem empty : Canonical {} where
  positive h := by rw [Std.ExtTreeMap.getElem?_empty] at h; contradiction
  nonempty h := by rw [Std.ExtTreeMap.getElem?_empty] at h; contradiction

theorem under (h : d.Canonical) (modal : String) : (d.under modal).Positive := by
  match hmodal : d.byModal[modal]? with
  | none => rw [under_eq_empty_of_getElem? hmodal]; exact Counts.positive_empty
  | some tables => rw [under_eq_of_getElem? hmodal]; exact h.positive hmodal

/-- What is stored for a modal can be told from the tables under it. -/
theorem getElem?_eq (h : d.Canonical) (modal : String) :
    d.byModal[modal]? = if d.under modal = ∅ then none else some (d.under modal) := by
  match hmodal : d.byModal[modal]? with
  | none => rw [under_eq_empty_of_getElem? hmodal, if_pos rfl]
  | some tables => rw [under_eq_of_getElem? hmodal, if_neg (h.nonempty hmodal)]

/-- A directory is determined by its counts. -/
theorem ext (ha : a.Canonical) (hb : b.Canonical) (h : ∀ entry, a.count entry = b.count entry) :
    a = b := by
  have hunder (modal : String) : a.under modal = b.under modal :=
    (ha.under modal).ext (hb.under modal) fun table => h ⟨modal, table⟩
  -- a modal is stored just when some table stands under it, so equal counts leave no choice
  have hmaps : a.byModal = b.byModal := Std.ExtTreeMap.ext_getElem? fun modal => by
    rw [ha.getElem?_eq, hb.getElem?_eq, hunder]
  exact congrArg ModalDirectory.mk hmaps

theorem add (h : d.Canonical) (entry : ModalTable) : (d.add entry).Canonical where
  positive hmodal := by
    rw [getElem?_add] at hmodal
    split at hmodal
    · exact Option.some.inj hmodal ▸ (h.under entry.modal).add 1
    · exact h.positive hmodal
  nonempty hmodal := by
    rw [getElem?_add] at hmodal
    split at hmodal
    · exact Option.some.inj hmodal ▸ Std.ExtTreeMap.insert_ne_empty
    · exact h.nonempty hmodal

theorem store (h : d.Canonical) (modal : String) {tables : Counts String}
    (htables : tables.Positive) : (d.store modal tables).Canonical where
  positive hmodal := by
    rw [getElem?_store] at hmodal
    split at hmodal
    · split at hmodal
      · contradiction
      · exact Option.some.inj hmodal ▸ htables
    · exact h.positive hmodal
  nonempty hmodal := by
    rw [getElem?_store] at hmodal
    split at hmodal
    · split at hmodal
      · contradiction
      · next hnonempty => exact Option.some.inj hmodal ▸ hnonempty
    · exact h.nonempty hmodal

/-- A table can be counted once less, whether it stands under the modal or not. -/
theorem remove? (h : d.Canonical) (entry : ModalTable) : ∃ r, d.remove? entry = some r ∧
    r.Canonical ∧ ∀ other, r.count other = d.count other - if entry = other then 1 else 0 := by
  match hmodal : d.byModal[entry.modal]? with
  | none =>
      refine ⟨d, by rw [ModalDirectory.remove?, hmodal], h, fun other => ?_⟩
      split
      · next heq => rw [← heq, count, under_eq_empty_of_getElem? hmodal, Counts.count_empty]
      · rfl
  | some tables =>
      have htables := h.positive hmodal
      refine ⟨_, ?_, h.store entry.modal (htables.remove (x := entry.table) 1), fun other => ?_⟩
      · rw [ModalDirectory.remove?, hmodal]
        exact congrArg (Option.map (d.store entry.modal)) (htables.decrement? entry.table)
      · rw [← count_store_remove, under_eq_of_getElem? hmodal]

-- a count of zero, which no operation stores, could not be lessened
example : ModalDirectory.remove?
    ⟨Std.ExtTreeMap.ofList [("execute", Std.ExtTreeMap.ofList [("p", 0)])]⟩ ⟨"execute", "p"⟩ =
      none := by decide +kernel

theorem of_remove? (h : d.Canonical) (hr : d.remove? entry = some r) :
    r.Canonical ∧ ∀ other, r.count other = d.count other - if entry = other then 1 else 0 := by
  obtain ⟨r', hremove, hr'⟩ := h.remove? entry
  rwa [Option.some.inj (hremove.symm.trans hr)] at hr'

theorem addTimes (h : d.Canonical) (entry : ModalTable) (n : Nat) :
    (d.addTimes entry n).Canonical := by
  induction n generalizing d with
  | zero => exact h
  | succ n ih => exact ih (h.add entry)

/-- A table can be counted several times less, however often it stands under the modal. -/
theorem removeTimes? (h : d.Canonical) (entry : ModalTable) (n : Nat) :
    ∃ r, d.removeTimes? entry n = some r ∧ r.Canonical ∧
      ∀ other, r.count other = d.count other - if entry = other then n else 0 := by
  induction n generalizing d with
  | zero => exact ⟨d, rfl, h, fun other => by rw [ite_self, Nat.sub_zero]⟩
  | succ n ih =>
      obtain ⟨between, hremove, hbetween, hcount⟩ := h.remove? entry
      obtain ⟨r, hrest, hr, hcount'⟩ := ih hbetween
      refine ⟨r, ?_, hr, fun other => ?_⟩
      · rw [ModalDirectory.removeTimes?, hremove]
        exact hrest
      · rw [hcount', hcount]
        split <;> omega

end Canonical

section Index

theorem mem_index : entry ∈ d.index.counts ↔ entry.table ∈ d.under entry.modal := by
  rw [Std.ExtTreeMap.mem_iff_isSome_getElem?, Std.ExtTreeMap.mem_iff_isSome_getElem?,
    getElem?_index]

namespace Canonical

theorem index (h : d.Canonical) : d.index.counts.Positive := fun entry hentry =>
  (h.under entry.modal entry.table (mem_index.1 hentry)).trans_eq (count_index d entry).symm

/-- The index of a directory is the one that counts alike. -/
theorem index_eq (h : d.Canonical) {i : ModalIndex} (hi : i.counts.Positive)
    (hcount : ∀ entry, d.count entry = i.count entry) : d.index = i :=
  congrArg ModalIndex.mk (h.index.ext hi fun entry => (count_index d entry).trans (hcount entry))

theorem eq_of_index (ha : a.Canonical) (hb : b.Canonical) (h : a.index = b.index) : a = b :=
  ha.ext hb fun entry => by rw [← count_index, h, count_index]

theorem index_eq_add (h : d.Canonical) (hr : r.Canonical)
    (hcount : ∀ other, r.count other = d.count other + if entry = other then n else 0) :
    r.index = ⟨d.index.counts.add entry n⟩ := by
  refine hr.index_eq (h.index.add n) fun other => ?_
  rw [hcount, ← count_index]
  exact (Counts.count_add d.index.counts entry other n).symm

theorem index_eq_remove (h : d.Canonical) (hr : r.Canonical)
    (hcount : ∀ other, r.count other = d.count other - if entry = other then n else 0) :
    r.index = ⟨d.index.counts.remove entry n⟩ := by
  refine hr.index_eq (h.index.remove n) fun other => ?_
  rw [hcount, ← count_index]
  exact (Counts.count_remove d.index.counts entry other n).symm

theorem index_add (h : d.Canonical) (entry : ModalTable) :
    (d.add entry).index = d.index.add entry :=
  h.index_eq_add (h.add entry) (count_add d entry)

/-- Counting a table once less has the effect that it has on the index. -/
theorem index_remove? (h : d.Canonical) (entry : ModalTable) :
    (d.remove? entry).map ModalDirectory.index = some (d.index.remove entry) := by
  obtain ⟨r, hremove, hr, hcount⟩ := h.remove? entry
  rw [hremove]
  exact congrArg some (h.index_eq_remove hr hcount)

private theorem foldl_addTimes (h : d.Canonical) (l : List (ModalTable × Nat)) :
    let r := l.foldl (fun d (entry, n) => d.addTimes entry n) d
    r.Canonical ∧ r.index = ⟨l.foldl (fun c (entry, n) => c.add entry n) d.index.counts⟩ := by
  induction l generalizing d with
  | nil => exact ⟨h, rfl⟩
  | cons p rest ih =>
      obtain ⟨entry, n⟩ := p
      have hadded := h.addTimes entry n
      have hrest := ih hadded
      rwa [h.index_eq_add hadded fun other => count_addTimes d entry other n] at hrest

private theorem foldlM_removeTimes? (h : d.Canonical) (l : List (ModalTable × Nat)) :
    ∃ r, l.foldlM (fun d (entry, n) => d.removeTimes? entry n) d = some r ∧ r.Canonical ∧
      r.index = ⟨l.foldl (fun c (entry, n) => c.remove entry n) d.index.counts⟩ := by
  induction l generalizing d with
  | nil => exact ⟨d, rfl, h, rfl⟩
  | cons p rest ih =>
      obtain ⟨entry, n⟩ := p
      obtain ⟨between, hremove, hbetween, hcount⟩ := h.removeTimes? entry n
      obtain ⟨r, hrest, hr, hindex⟩ := ih hbetween
      rw [h.index_eq_remove hbetween hcount] at hindex
      refine ⟨r, ?_, hr, hindex⟩
      rw [List.foldlM_cons]
      show (d.removeTimes? entry n).bind _ = some r
      rw [hremove]
      exact hrest

theorem plus (ha : a.Canonical) (b : ModalDirectory) : (a.plus b).Canonical :=
  (ha.foldl_addTimes b.entries).1

/-- Adding a directory entry by entry has the effect that it has on the index. -/
theorem index_plus (ha : a.Canonical) (b : ModalDirectory) :
    (a.plus b).index = a.index.union b.index := by
  rw [ModalIndex.union, Counts.union, toList_index]
  exact (ha.foldl_addTimes b.entries).2

theorem count_plus (ha : a.Canonical) (hb : b.Canonical) (entry : ModalTable) :
    (a.plus b).count entry = a.count entry + b.count entry := by
  rw [← count_index, ha.index_plus, ← count_index a, ← count_index b]
  exact Counts.count_union ha.index hb.index entry

/-- Every directory can be taken away, which has the effect that it has on the index. -/
theorem minus? (ha : a.Canonical) (b : ModalDirectory) :
    ∃ r, a.minus? b = some r ∧ r.Canonical ∧ r.index = a.index.diff b.index := by
  rw [ModalIndex.diff, Counts.diff, toList_index]
  exact ha.foldlM_removeTimes? b.entries

theorem of_minus? (ha : a.Canonical) (hr : a.minus? b = some r) :
    r.Canonical ∧ r.index = a.index.diff b.index := by
  obtain ⟨r', hminus, hr'⟩ := ha.minus? b
  rwa [Option.some.inj (hminus.symm.trans hr)] at hr'

theorem count_minus? (ha : a.Canonical) (hb : b.Canonical) (hr : a.minus? b = some r)
    (entry : ModalTable) : r.count entry = a.count entry - b.count entry := by
  rw [← count_index, (ha.of_minus? hr).2, ← count_index a, ← count_index b]
  exact Counts.count_diff ha.index hb.index entry

/-- A directory that has been added can be taken away again. -/
theorem minus?_plus (ha : a.Canonical) (hb : b.Canonical) : (a.plus b).minus? b = some a := by
  obtain ⟨r, hminus, hr, hindex⟩ := (ha.plus b).minus? b
  rw [ha.index_plus, DependencyGraph.diff_union ha.index hb.index] at hindex
  rw [hminus, hr.eq_of_index ha hindex]

/-- A directory that has been taken away can be added again just when it was contained. -/
theorem plus_minus?_iff (ha : a.Canonical) (hb : b.Canonical) (hr : a.minus? b = some r) :
    r.plus b = a ↔ ∀ entry, b.count entry ≤ a.count entry := by
  obtain ⟨hcanonical, hindex⟩ := ha.of_minus? hr
  have hback : (r.plus b).index = (a.index.diff b.index).union b.index := by
    rw [hcanonical.index_plus, hindex]
  have hcontained := DependencyGraph.union_diff_iff ha.index hb.index
  calc r.plus b = a
      ↔ (r.plus b).index = a.index :=
        ⟨congrArg ModalDirectory.index, (hcanonical.plus b).eq_of_index ha⟩
    _ ↔ ∀ entry, b.index.count entry ≤ a.index.count entry := hback ▸ hcontained
    _ ↔ ∀ entry, b.count entry ≤ a.count entry := by simp only [count_index]

theorem index_empty : ModalDirectory.index {} = {} :=
  empty.index_eq Counts.positive_empty fun _ => rfl

/-- An index without empty entries is that of one directory only. -/
theorem existsUnique_index {i : ModalIndex} (hi : i.counts.Positive) :
    ∃! d : ModalDirectory, d.Canonical ∧ d.index = i := by
  obtain ⟨hd, hindex⟩ := empty.foldl_addTimes i.counts.toList
  have hall : Counts.union ∅ i.counts = i.counts :=
    (Counts.positive_empty.union hi).ext hi fun entry => by
      rw [Counts.count_union Counts.positive_empty hi, Counts.count_empty, Nat.zero_add]
  rw [index_empty] at hindex
  have heq := hindex.trans (congrArg ModalIndex.mk hall)
  exact ⟨_, ⟨hd, heq⟩, fun d' hd' => hd'.1.eq_of_index hd (hd'.2.trans heq.symm)⟩

end Canonical

end Index

section Shown

/-- The tables under a modal are shown alike. -/
theorem tables_index (d : ModalDirectory) (modal : String) :
    d.index.tables modal = d.tables modal := by
  have hordered : OrderedList.Increasing compare (d.index.tables modal) := by
    refine List.pairwise_map.2 ((Std.ExtTreeMap.ordered_keys.filter _).imp_of_mem ?_)
    rintro ⟨p, s⟩ ⟨q, t⟩ hp hq hlt
    obtain rfl : p = modal := of_decide_eq_true (List.mem_filter.1 hp).2
    obtain rfl : q = p := of_decide_eq_true (List.mem_filter.1 hq).2
    rwa [ModalTable.compare_tables] at hlt
  refine hordered.ext Std.ExtTreeMap.ordered_keys fun table => ?_
  rw [ModalIndex.tables, List.mem_map, tables, Std.ExtTreeMap.mem_keys]
  constructor
  · rintro ⟨entry, hentry, rfl⟩
    obtain ⟨hkey, hmodal⟩ := List.mem_filter.1 hentry
    obtain rfl : entry.modal = modal := of_decide_eq_true hmodal
    exact mem_index.1 (Std.ExtTreeMap.mem_keys.1 hkey)
  · intro htable
    exact ⟨⟨modal, table⟩, List.mem_filter.2 ⟨Std.ExtTreeMap.mem_keys.2 (mem_index.2 htable),
      decide_eq_true rfl⟩, rfl⟩

/-- The modals are shown alike, as none of them is without tables. -/
theorem Canonical.modals_index (h : d.Canonical) : d.index.modals = d.modals := by
  refine (OrderedList.increasing_ofList _).ext Std.ExtTreeMap.ordered_keys fun modal => ?_
  rw [OrderedList.mem_ofList, List.mem_map, modals, Std.ExtTreeMap.mem_keys]
  constructor
  · rintro ⟨entry, hentry, rfl⟩
    have htable := mem_index.1 (Std.ExtTreeMap.mem_keys.1 hentry)
    by_contra hmodal
    rw [under_eq_empty_of_getElem? (Std.ExtTreeMap.getElem?_eq_none hmodal)] at htable
    exact Std.ExtTreeMap.not_mem_empty htable
  · intro hmodal
    have hget : d.byModal[modal]? = some d.byModal[modal] :=
      Std.ExtTreeMap.getElem?_eq_some_getElem hmodal
    obtain ⟨table, htable⟩ :=
      List.exists_mem_of_ne_nil _ (mt Std.ExtTreeMap.keys_eq_nil_iff.1 (h.nonempty hget))
    rw [← under_eq_of_getElem? hget, Std.ExtTreeMap.mem_keys] at htable
    exact ⟨⟨modal, table⟩, Std.ExtTreeMap.mem_keys.2 (mem_index.2 htable), rfl⟩

theorem Canonical.isEmpty_index (h : d.Canonical) : d.index.isEmpty = d.isEmpty := by
  rw [Bool.eq_iff_iff, ModalIndex.isEmpty, isEmpty, Std.ExtTreeMap.isEmpty_iff,
    Std.ExtTreeMap.isEmpty_iff]
  constructor
  · intro hindex
    have hindex : d.index = {} := congrArg ModalIndex.mk hindex
    rw [h.eq_of_index .empty (hindex.trans index_empty.symm)]
  · intro hstored
    have hd : d = {} := congrArg ModalDirectory.mk hstored
    rw [hd, index_empty]

theorem Canonical.text_index (h : d.Canonical) : d.index.text = d.text := by
  simp only [ModalIndex.text, text, h.modals_index, tables_index]

end Shown

section Reachable

/-- The directories that come out of empty ones by operations. -/
inductive Reachable : ModalDirectory → Prop
  | empty : Reachable {}
  | add {d : ModalDirectory} (h : Reachable d) (entry : ModalTable) : Reachable (d.add entry)
  | remove {d r : ModalDirectory} (h : Reachable d) (entry : ModalTable)
      (hr : d.remove? entry = some r) : Reachable r
  | plus {a b : ModalDirectory} (ha : Reachable a) (hb : Reachable b) : Reachable (a.plus b)
  | minus {a b r : ModalDirectory} (ha : Reachable a) (hb : Reachable b)
      (hr : a.minus? b = some r) : Reachable r

theorem Reachable.canonical (h : d.Reachable) : d.Canonical := by
  induction h with
  | empty => exact .empty
  | add _ entry ih => exact ih.add entry
  | remove _ entry hr ih => exact (ih.of_remove? hr).1
  | plus _ _ ha _ => exact ha.plus _
  | minus _ _ hr ha _ => exact (ha.of_minus? hr).1

/-- Directories are multisets of tables under modals, stored without counts of zero and without
modals that have no tables. No operation comes to lessen a count of zero. A directory that has been
added can be taken away again, and one that has been taken away can be added again just when it was
contained. -/
theorem counts_ofReachable (ha : a.Reachable) (hb : b.Reachable) :
    a.Canonical ∧
    (∀ entry other, (a.add entry).count other = a.count other + if entry = other then 1 else 0) ∧
    (∀ entry, ∃ r, a.remove? entry = some r ∧
      (∀ other, r.count other = a.count other - if entry = other then 1 else 0) ∧
      (a.count entry = 0 → r = a)) ∧
    (∀ entry, (a.plus b).count entry = a.count entry + b.count entry) ∧
    (∃ r, a.minus? b = some r ∧ (∀ entry, r.count entry = a.count entry - b.count entry) ∧
      ((∀ entry, a.count entry = 0 ∨ b.count entry = 0) → r = a) ∧
      (r.plus b = a ↔ ∀ entry, b.count entry ≤ a.count entry)) ∧
    (a.plus b).minus? b = some a := by
  have ha := ha.canonical
  have hb := hb.canonical
  refine ⟨ha, count_add a, fun entry => ?_, ha.count_plus hb, ?_, ha.minus?_plus hb⟩
  · obtain ⟨r, hremove, hr, hcount⟩ := ha.remove? entry
    refine ⟨r, hremove, hcount, fun habsent => hr.ext ha fun other => ?_⟩
    rw [hcount]
    split
    · next heq => rw [← heq, habsent]
    · rfl
  · obtain ⟨r, hminus, hr, -⟩ := ha.minus? b
    have hcount := ha.count_minus? hb hminus
    refine ⟨r, hminus, hcount, fun habsent => hr.ext ha fun entry => ?_,
      ha.plus_minus?_iff hb hminus⟩
    rw [hcount]
    have := habsent entry
    omega

/-- Two tables under a modal, and one of them under another modal. -/
def sampleDirectory : ModalDirectory :=
  ((({} : ModalDirectory).add ⟨"execute", "p"⟩).add ⟨"execute", "q"⟩).add ⟨"insert", "p"⟩

/-- The tables under one of the modals, one of them more often. -/
def otherDirectory : ModalDirectory :=
  ((({} : ModalDirectory).add ⟨"execute", "p"⟩).add ⟨"execute", "p"⟩).add ⟨"execute", "q"⟩

theorem counts_sampleDirectories :
    sampleDirectory.Reachable ∧ otherDirectory.Reachable ∧
    (sampleDirectory.plus otherDirectory).count ⟨"execute", "p"⟩ = 3 ∧
    (sampleDirectory.plus otherDirectory).minus? otherDirectory = some sampleDirectory ∧
    ∃ r, sampleDirectory.minus? otherDirectory = some r ∧
      r.count ⟨"execute", "p"⟩ = 0 ∧ r.count ⟨"insert", "p"⟩ = 1 ∧
      r.plus otherDirectory ≠ sampleDirectory := by
  have hsample : sampleDirectory.Reachable := ((Reachable.empty.add _).add _).add _
  have hother : otherDirectory.Reachable := ((Reachable.empty.add _).add _).add _
  have hp : sampleDirectory.count ⟨"execute", "p"⟩ = 1 ∧
      otherDirectory.count ⟨"execute", "p"⟩ = 2 := by decide +kernel
  have hinsert : sampleDirectory.count ⟨"insert", "p"⟩ = 1 ∧
      otherDirectory.count ⟨"insert", "p"⟩ = 0 := by decide +kernel
  obtain ⟨-, -, -, hplus, ⟨r, hminus, hcount, -, hback⟩, hundone⟩ :=
    counts_ofReachable hsample hother
  refine ⟨hsample, hother, ?_, hundone, r, hminus, ?_, ?_, fun heq => ?_⟩
  · rw [hplus, hp.1, hp.2]
  · rw [hcount, hp.1, hp.2]
  · rw [hcount, hinsert.1, hinsert.2]
  · have hle := hback.1 heq ⟨"execute", "p"⟩
    omega

end Reachable

end ModalDirectory

end DatalogPolicy
