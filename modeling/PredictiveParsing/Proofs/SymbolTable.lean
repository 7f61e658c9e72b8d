import Mathlib.Data.List.Perm.Subperm
import PredictiveParsing.SymbolTable

/-!
# The content of tables and sets

The entries of a table are what `get?` answers, whatever the operation that
made the table. A set that lies inside another one is not larger than it,
and is smaller unless both are equal; this bounds how often sets can grow. A
list without its repetitions keeps the order of the first occurrences.
-/

namespace PredictiveParsing

/-- Of two elements that a filter keeps, the one that comes first afterwards
came first before. -/
theorem idxOf_lt_of_filter {α : Type} [BEq α] [LawfulBEq α] {p : α → Bool} {b c : α} {l : List α}
    (hb : p b = true) (hc : p c = true) (h : (l.filter p).idxOf b < (l.filter p).idxOf c) :
    l.idxOf b < l.idxOf c := by
  induction l with
  | nil => exact h
  | cons x rest ih =>
    by_cases hx : p x = true
    · rw [List.filter_cons_of_pos hx] at h
      by_cases hxc : x = c
      · rw [hxc, List.idxOf_cons_self] at h
        exact absurd h (Nat.not_lt_zero _)
      rw [List.idxOf_cons_ne _ hxc] at h ⊢
      by_cases hxb : x = b
      · rw [hxb, List.idxOf_cons_self]
        exact Nat.succ_pos _
      · rw [List.idxOf_cons_ne _ hxb] at h ⊢
        exact Nat.succ_lt_succ (ih (Nat.lt_of_succ_lt_succ h))
    · rw [List.filter_cons_of_neg hx] at h
      have hxb : x ≠ b := fun e => hx (e ▸ hb)
      have hxc : x ≠ c := fun e => hx (e ▸ hc)
      rw [List.idxOf_cons_ne _ hxb, List.idxOf_cons_ne _ hxc]
      exact Nat.succ_lt_succ (ih h)

/-- A list from which repetitions are erased lists its elements in the order in
which they first came. -/
theorem pairwise_idxOf_eraseDups {α : Type} [BEq α] [LawfulBEq α] (l : List α) :
    l.eraseDups.Pairwise fun b c => l.idxOf b < l.idxOf c := by
  match l with
  | [] => exact List.Pairwise.nil
  | a :: rest =>
    have kept : ∀ b ∈ (rest.filter fun b => !b == a).eraseDups, (!b == a) = true := fun b hb =>
      (List.mem_filter.mp (List.mem_eraseDups.mp hb)).2
    have apart : ∀ b ∈ (rest.filter fun b => !b == a).eraseDups, a ≠ b := by
      intro b hb e
      have hkept := kept b hb
      rw [e, beq_self_eq_true] at hkept
      cases hkept
    rw [List.eraseDups_cons, List.pairwise_cons]
    constructor
    · intro b hb
      rw [List.idxOf_cons_self, List.idxOf_cons_ne _ (apart b hb)]
      exact Nat.succ_pos _
    · refine (pairwise_idxOf_eraseDups (rest.filter fun b => !b == a)).imp_of_mem fun hb hc h => ?_
      rw [List.idxOf_cons_ne _ (apart _ hb), List.idxOf_cons_ne _ (apart _ hc)]
      exact Nat.succ_lt_succ (idxOf_lt_of_filter (kept _ hb) (kept _ hc) h)
termination_by l.length
decreasing_by exact Nat.lt_succ_of_le (List.length_filter_le _ _)

/-- A list from which repetitions are erased has none. -/
theorem nodup_eraseDups {α : Type} [BEq α] [LawfulBEq α] (l : List α) : l.eraseDups.Nodup :=
  (pairwise_idxOf_eraseDups l).imp fun {b c} h (e : b = c) => by
    rw [e] at h
    exact absurd h (Nat.lt_irrefl _)

namespace SymbolTable

variable {α β : Type}

/-- A key is found with a value exactly if there is such an entry. -/
theorem find_eq_some_iff {entries : List (Symbol × α)} (h : (entries.map Prod.fst).Nodup)
    {key : Symbol} {value : α} : find entries key = some value ↔ (key, value) ∈ entries := by
  induction entries with
  | nil => simp [find]
  | cons entry rest ih =>
    obtain ⟨k, v⟩ := entry
    rw [List.map_cons, List.nodup_cons] at h
    have hrest := ih h.2
    rw [find, List.mem_cons, Prod.mk.injEq]
    split
    · next e =>
      have hk : (key, value) ∉ rest := by
        intro hm
        have hkey : key ∈ rest.map Prod.fst := List.mem_map_of_mem hm
        exact h.1 (e ▸ hkey)
      rw [Option.some.injEq]
      exact ⟨fun hv => .inl ⟨e.symm, hv.symm⟩,
        fun hv => hv.elim (fun hv => hv.2.symm) fun hm => absurd hm hk⟩
    · next e =>
      rw [hrest]
      exact ⟨.inr, fun hv => hv.elim (fun hv => absurd hv.1.symm e) id⟩

/-- The entries of a table are what it answers. -/
theorem mem_entries_iff {t : SymbolTable α} {key : Symbol} {value : α} :
    (key, value) ∈ t.entries ↔ t.get? key = some value :=
  (find_eq_some_iff t.nodup_keys).symm

/-- The keys of a table are the symbols for which it has an answer. -/
theorem mem_keys_iff {t : SymbolTable α} {key : Symbol} :
    key ∈ t.keys ↔ ∃ value, t.get? key = some value := by
  rw [← contains_iff, contains, Option.isSome_iff_exists]

theorem find_selectEntries (f : Symbol → α → Option β) {entries : List (Symbol × α)}
    (h : (entries.map Prod.fst).Nodup) (key : Symbol) :
    find (selectEntries f entries) key = (find entries key).bind (f key) := by
  induction entries with
  | nil => rfl
  | cons entry rest ih =>
    obtain ⟨k, v⟩ := entry
    rw [List.map_cons, List.nodup_cons] at h
    have hrest := ih h.2
    have absent : k = key → find rest key = none := by
      rintro rfl
      rw [← Option.not_isSome_iff_eq_none, find_isSome_iff]
      exact h.1
    unfold selectEntries at hrest ⊢
    rw [List.filterMap_cons]
    cases hf : f k v with
    | none =>
      rw [Option.map_none, find]
      dsimp only
      rw [hrest]
      split
      · next e => rw [absent e]; rw [← e, Option.bind_none, Option.bind_some, hf]
      · rfl
    | some w =>
      rw [Option.map_some, find]
      dsimp only
      rw [find, hrest]
      split
      · next e => rw [← e, Option.bind_some, hf]
      · rfl

/-- Selecting by key and value is selecting from every answer. -/
theorem get?_select (t : SymbolTable α) (f : Symbol → α → Option β) (key : Symbol) :
    (t.select f).get? key = (t.get? key).bind (f key) :=
  find_selectEntries f t.nodup_keys key

/-- The keys that are selected keep their order. -/
theorem keys_select (t : SymbolTable α) (f : Symbol → α → Option β) :
    (t.select f).keys =
      (t.entries.filter fun entry => (f entry.1 entry.2).isSome).map Prod.fst := by
  unfold keys select selectEntries
  dsimp only
  induction t.entries with
  | nil => rfl
  | cons entry rest ih =>
    rw [List.filterMap_cons, List.filter_cons]
    cases f entry.1 entry.2 with
    | none => exact ih
    | some value => exact congrArg (entry.1 :: ·) ih

/-- A table has a key exactly if another one with the same keys has it. -/
theorem contains_eq_of_keys {t u : SymbolTable α} (h : t.keys = u.keys) (b : Symbol) :
    t.contains b = u.contains b := by
  rw [Bool.eq_iff_iff, SymbolTable.contains_iff, SymbolTable.contains_iff, h]

/-- A table is given by its entries. -/
theorem eq_of_entries {t u : SymbolTable α} (h : t.entries = u.entries) : t = u := by
  obtain ⟨entries, nodup⟩ := t
  obtain ⟨others, nodup'⟩ := u
  have he : entries = others := h
  subst he
  rfl

/-- Where every key is selected with its value the table is left as it is. -/
theorem select_eq_self {t : SymbolTable α} {f : Symbol → α → Option α}
    (h : ∀ key value, t.get? key = some value → f key value = some value) : t.select f = t := by
  have unchanged : ∀ entries : List (Symbol × α),
      (∀ entry ∈ entries, f entry.1 entry.2 = some entry.2) →
        selectEntries f entries = entries := by
    intro entries
    induction entries with
    | nil => exact fun _ => rfl
    | cons entry rest ih =>
      intro hall
      obtain ⟨hfirst, hrest⟩ := List.forall_mem_cons.mp hall
      have hlast := ih hrest
      rw [selectEntries] at hlast ⊢
      rw [List.filterMap_cons, hfirst, Option.map_some, hlast]
  exact eq_of_entries (unchanged t.entries fun entry he => h _ _ (mem_entries_iff.mp he))

/-- A new key goes to the end. -/
theorem put_of_notMem {key : Symbol} {entries : List (Symbol × α)}
    (h : key ∉ entries.map Prod.fst) (value : α) :
    put key value entries = entries ++ [(key, value)] := by
  induction entries with
  | nil => rfl
  | cons entry rest ih =>
    rw [List.map_cons, List.mem_cons, not_or] at h
    rw [put, if_neg (Ne.symm h.1), ih h.2]
    rfl

/-- A list of entries without repeated keys is the table of its entries. -/
theorem entries_ofList {entries : List (Symbol × α)} (h : (entries.map Prod.fst).Nodup) :
    (ofList entries).entries = entries := by
  have grow : ∀ (rest : List (Symbol × α)) (t : SymbolTable α),
      ((t.entries ++ rest).map Prod.fst).Nodup →
        (rest.foldl (fun t entry => t.set entry.1 entry.2) t).entries = t.entries ++ rest := by
    intro rest
    induction rest with
    | nil => exact fun t _ => (List.append_nil _).symm
    | cons entry rest ih =>
      intro t ht
      have hnew : entry.1 ∉ t.entries.map Prod.fst := by
        rw [List.map_append, List.map_cons] at ht
        exact fun hmem => (List.nodup_append.mp ht).2.2 _ hmem _ List.mem_cons_self rfl
      have hset : (t.set entry.1 entry.2).entries = t.entries ++ [entry] :=
        put_of_notMem hnew entry.2
      rw [List.foldl_cons, ih, hset, List.append_assoc]
      · rfl
      · rwa [hset, List.append_assoc]
  exact grow entries empty h

/-- A key that is given the value it has changes nothing. -/
theorem set_eq_self {t : SymbolTable α} {key : Symbol} {value : α}
    (h : t.get? key = some value) : t.set key value = t := by
  have unchanged : ∀ entries : List (Symbol × α), find entries key = some value →
      put key value entries = entries := by
    intro entries
    induction entries with
    | nil => exact fun hf => by cases hf
    | cons entry rest ih =>
      intro hf
      obtain ⟨k, v⟩ := entry
      rw [find] at hf
      rw [put]
      split at hf
      · next e => rw [if_pos e, Option.some.inj hf]
      · next e => rw [if_neg e, ih hf]
  exact eq_of_entries (unchanged t.entries h)

/-- The sizes of all values of a list of entries together. -/
def weightOf (size : α → Nat) : List (Symbol × α) → Nat
  | [] => 0
  | entry :: rest => size entry.2 + weightOf size rest

/-- The sizes of all values together. -/
def weight (size : α → Nat) (t : SymbolTable α) : Nat := weightOf size t.entries

/-- An entry that is replaced no longer counts. -/
theorem weightOf_put (size : α → Nat) {key : Symbol} {value : α} (other : α)
    {entries : List (Symbol × α)} (h : find entries key = some value) :
    weightOf size (put key other entries) + size value = weightOf size entries + size other := by
  induction entries with
  | nil => cases h
  | cons entry rest ih =>
    obtain ⟨k, v⟩ := entry
    rw [find] at h
    rw [put]
    split at h
    · next e =>
      rw [if_pos e, ← Option.some.inj h, weightOf, weightOf]
      dsimp only
      omega
    · next e =>
      have hrest := ih h
      rw [if_neg e, weightOf, weightOf]
      omega

/-- A new value for a key counts instead of the old one. -/
theorem weight_set (size : α → Nat) {t : SymbolTable α} {key : Symbol} {value : α}
    (h : t.get? key = some value) (other : α) :
    (t.set key other).weight size + size value = t.weight size + size other :=
  weightOf_put size other h

/-- An entry for a key that had none counts beside the others. -/
theorem weightOf_put_of_find_eq_none (size : α → Nat) {key : Symbol} (value : α)
    {entries : List (Symbol × α)} (h : find entries key = none) :
    weightOf size (put key value entries) = weightOf size entries + size value := by
  induction entries with
  | nil =>
    rw [put, weightOf, weightOf]
    exact Nat.add_comm _ _
  | cons entry rest ih =>
    obtain ⟨k, v⟩ := entry
    rw [find] at h
    rw [put]
    split at h
    · cases h
    · next e =>
      have hrest := ih h
      rw [if_neg e, weightOf, weightOf]
      omega

/-- A value for a new key counts beside the others. -/
theorem weight_set_of_get?_eq_none (size : α → Nat) {t : SymbolTable α} {key : Symbol}
    (h : t.get? key = none) (value : α) :
    (t.set key value).weight size = t.weight size + size value :=
  weightOf_put_of_find_eq_none size value h

/-- Entries of bounded size have a bounded weight. -/
theorem weightOf_le {size : α → Nat} {bound : Nat} {entries : List (Symbol × α)}
    (h : ∀ entry ∈ entries, size entry.2 ≤ bound) :
    weightOf size entries ≤ entries.length * bound := by
  induction entries with
  | nil => exact Nat.zero_le _
  | cons entry rest ih =>
    have hrest := ih fun e he => h e (List.mem_cons_of_mem _ he)
    have hfirst := h entry List.mem_cons_self
    rw [weightOf, List.length_cons, Nat.succ_mul]
    omega

/-- Values of bounded size have a bounded weight. -/
theorem weight_le {size : α → Nat} {bound : Nat} {t : SymbolTable α}
    (h : ∀ key value, t.get? key = some value → size value ≤ bound) :
    t.weight size ≤ t.keys.length * bound := by
  rw [keys, List.length_map]
  exact weightOf_le fun entry he => h entry.1 entry.2 (mem_entries_iff.mp he)

end SymbolTable

namespace SymbolSet

/-- Members of the one set that all belong to the other are not more. -/
theorem size_le_of_subset {s t : SymbolSet} (h : s ⊆ t) : s.size ≤ t.size :=
  (s.nodup_members.subperm h).length_le

/-- A set that lies inside a list has no more members than the list. -/
theorem size_le_length {s : SymbolSet} {l : List Symbol} (h : ∀ a ∈ s, a ∈ l) :
    s.size ≤ l.length :=
  (s.nodup_members.subperm h).length_le

/-- A set inside another one of no larger size is that one. -/
theorem eq_of_subset_of_size_le {s t : SymbolSet} (h : s ⊆ t) (hs : t.size ≤ s.size) : s = t := by
  have hp := (s.nodup_members.subperm h).perm_of_length_le hs
  exact ext fun a => hp.mem_iff

/-- A set that lies properly inside another one is smaller. -/
theorem size_lt_of_subset {s t : SymbolSet} (h : s ⊆ t) (hne : s ≠ t) : s.size < t.size := by
  by_contra hn
  exact hne (eq_of_subset_of_size_le h (by omega))

/-- A union with members that are there already changes nothing; any other
union is larger. -/
theorem union_eq_self_or_size_lt (s t : SymbolSet) : s ∪ t = s ∨ s.size < (s ∪ t).size := by
  by_cases h : s = s ∪ t
  · exact .inl h.symm
  · refine .inr (size_lt_of_subset (fun a ha => ?_) h)
    exact mem_union.mpr (.inl ha)

/-- Members that are left out are left out whether they are inserted or not. -/
theorem filter_insertSorted {p : Symbol → Bool} {a : Symbol} (h : p a = false) (l : List Symbol) :
    (insertSorted a l).filter p = l.filter p := by
  induction l with
  | nil => rw [insertSorted, List.filter_cons, h]; rfl
  | cons b rest ih =>
    rw [insertSorted]
    split
    · rfl
    · split
      · rw [List.filter_cons, h]; rfl
      · rw [List.filter_cons, List.filter_cons, ih]

/-- The members that belong to a subset are those of the subset, in the same
order. -/
theorem filter_members_of_subset {s t : SymbolSet} (h : s ⊆ t) :
    t.members.filter (fun a => decide (a ∈ s)) = s.members := by
  refine eq_of_ascending (t.ascending.filter _) s.ascending fun a => ?_
  rw [List.mem_filter, decide_eq_true_eq]
  exact ⟨fun ha => ha.2, fun ha => ⟨h a ha, ha⟩⟩

end SymbolSet

end PredictiveParsing
