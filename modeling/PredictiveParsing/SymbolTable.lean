import PredictiveParsing.SymbolSet

/-!
# Tables keyed by symbols

A table gives at most one value to each symbol and keeps the keys in the
order in which they came. Setting the value of a key that is there leaves
the key at its place; a new key goes to the end. The order of the keys
shows in listings; the content of a table is what `get?` answers.
-/

namespace PredictiveParsing

/-- A table was asked for a symbol that it should have and has not. -/
structure MissingEntry where
  /-- The symbol without an entry. -/
  symbol : Symbol
  deriving DecidableEq, Repr

/-- The message names the missing symbol. -/
def MissingEntry.message (e : MissingEntry) : String := e.symbol.description

/-- A table of values keyed by symbols. -/
structure SymbolTable (α : Type) where
  /-- The keys with their values, in the order of the keys. -/
  entries : List (Symbol × α)
  /-- No key occurs twice. -/
  nodup_keys : (entries.map Prod.fst).Nodup
  deriving DecidableEq

namespace SymbolTable

variable {α β : Type}

/-- The keys in their order. -/
def keys (t : SymbolTable α) : List Symbol := t.entries.map Prod.fst

/-- The value that a list of entries gives to a key. -/
def find (entries : List (Symbol × α)) (key : Symbol) : Option α :=
  match entries with
  | [] => none
  | (k, v) :: rest => if k = key then some v else find rest key

/-- The value of a key. -/
def get? (t : SymbolTable α) (key : Symbol) : Option α := find t.entries key

/-- Whether a table has a key. -/
def contains (t : SymbolTable α) (key : Symbol) : Bool := (t.get? key).isSome

/-- A list of entries with the value of one key set. -/
def put (key : Symbol) (value : α) : List (Symbol × α) → List (Symbol × α)
  | [] => [(key, value)]
  | (k, v) :: rest => if k = key then (k, value) :: rest else (k, v) :: put key value rest

theorem find_put (key other : Symbol) (value : α) (entries : List (Symbol × α)) :
    find (put key value entries) other = if key = other then some value else find entries other := by
  induction entries with
  | nil => simp [put, find]
  | cons entry rest ih =>
    obtain ⟨k, v⟩ := entry
    simp only [put]
    split
    · next h => subst h; simp only [find]; split <;> simp
    · next h =>
      simp only [find, ih]
      split
      · next hk => subst hk; rw [if_neg fun e => h e.symm]
      · rfl

theorem find_isSome_iff {entries : List (Symbol × α)} {key : Symbol} :
    (find entries key).isSome = true ↔ key ∈ entries.map Prod.fst := by
  induction entries with
  | nil => simp [find]
  | cons entry rest ih =>
    obtain ⟨k, v⟩ := entry
    simp only [find, List.map_cons, List.mem_cons]
    split
    · next h => simp [h]
    · next h => simpa [Ne.symm h] using ih

theorem keys_put (key : Symbol) (value : α) (entries : List (Symbol × α)) :
    (put key value entries).map Prod.fst =
      if key ∈ entries.map Prod.fst then entries.map Prod.fst
      else entries.map Prod.fst ++ [key] := by
  induction entries with
  | nil => simp [put]
  | cons entry rest ih =>
    obtain ⟨k, v⟩ := entry
    simp only [put]
    by_cases h : k = key
    · subst h; simp
    · have h' : key ≠ k := fun e => h e.symm
      simp only [h, if_false, List.map_cons, ih, List.mem_cons, h', false_or]
      split <;> simp

theorem nodup_keys_put {key : Symbol} {value : α} {entries : List (Symbol × α)}
    (h : (entries.map Prod.fst).Nodup) : ((put key value entries).map Prod.fst).Nodup := by
  rw [keys_put]
  split
  · exact h
  · next hk =>
    rw [List.nodup_append]
    refine ⟨h, by simp, fun a ha b hb e => ?_⟩
    rw [List.mem_singleton.mp hb] at e
    exact hk (e ▸ ha)

/-- The table without keys. -/
def empty : SymbolTable α := ⟨[], List.nodup_nil⟩

/-- The table with the value of one key set. -/
def set (t : SymbolTable α) (key : Symbol) (value : α) : SymbolTable α :=
  ⟨put key value t.entries, nodup_keys_put t.nodup_keys⟩

@[simp] theorem get?_set (t : SymbolTable α) (key other : Symbol) (value : α) :
    (t.set key value).get? other = if key = other then some value else t.get? other :=
  find_put key other value t.entries

theorem keys_set (t : SymbolTable α) (key : Symbol) (value : α) :
    (t.set key value).keys = if key ∈ t.keys then t.keys else t.keys ++ [key] :=
  keys_put key value t.entries

theorem contains_iff {t : SymbolTable α} {key : Symbol} : t.contains key = true ↔ key ∈ t.keys :=
  find_isSome_iff

/-- The table of a list of entries: a key that is repeated keeps its first
place and takes its last value. -/
def ofList (entries : List (Symbol × α)) : SymbolTable α :=
  entries.foldl (fun t entry => t.set entry.1 entry.2) empty

/-- The value of a key replaced by what a function makes of it; a table
without the key is left as it is. -/
def modify (t : SymbolTable α) (key : Symbol) (f : α → α) : SymbolTable α :=
  match t.get? key with
  | some value => t.set key (f value)
  | none => t

@[simp] theorem get?_modify (t : SymbolTable α) (key other : Symbol) (f : α → α) :
    (t.modify key f).get? other =
      if key = other then (t.get? key).map f else t.get? other := by
  simp only [modify]
  cases h : t.get? key with
  | none =>
    simp only [Option.map_none]
    split
    · next e => exact e ▸ h
    · rfl
  | some value => simp

theorem keys_modify (t : SymbolTable α) (key : Symbol) (f : α → α) :
    (t.modify key f).keys = t.keys := by
  simp only [modify]
  cases h : t.get? key with
  | none => rfl
  | some value =>
    have : key ∈ t.keys := contains_iff.mp (by simp [contains, h])
    simp [keys_set, this]

/-- The table that gives every member of a set a value. -/
def tabulate (keys : SymbolSet) (f : Symbol → α) : SymbolTable α :=
  ⟨keys.members.map fun k => (k, f k), by
    rw [List.map_map]
    exact (List.map_id keys.members).symm ▸ keys.nodup_members⟩

theorem get?_tabulate (keys : SymbolSet) (f : Symbol → α) (key : Symbol) :
    (tabulate keys f).get? key = if key ∈ keys then some (f key) else none := by
  have h : ∀ l : List Symbol,
      find (l.map fun k => (k, f k)) key = if key ∈ l then some (f key) else none := by
    intro l
    induction l with
    | nil => simp [find]
    | cons k rest ih =>
      simp only [List.map_cons, find, ih, List.mem_cons]
      by_cases e : k = key
      · simp [e]
      · simp [e, Ne.symm e]
  have hk := h keys.members
  by_cases hm : key ∈ keys.members
  · rw [if_pos hm] at hk
    rw [if_pos (SymbolSet.mem_members.mp hm)]
    exact hk
  · rw [if_neg hm] at hk
    rw [if_neg fun hs => hm (SymbolSet.mem_members.mpr hs)]
    exact hk

/-- The entries for which a function of key and value has an outcome. -/
def selectEntries (f : Symbol → α → Option β) (entries : List (Symbol × α)) :
    List (Symbol × β) :=
  entries.filterMap fun entry => (f entry.1 entry.2).map fun value => (entry.1, value)

theorem keys_selectEntries (f : Symbol → α → Option β) (entries : List (Symbol × α)) :
    ((selectEntries f entries).map Prod.fst).Sublist (entries.map Prod.fst) := by
  induction entries with
  | nil => exact List.Sublist.refl _
  | cons entry rest ih =>
    simp only [selectEntries, List.filterMap_cons] at *
    cases f entry.1 entry.2 with
    | none => exact ih.cons _
    | some value => exact ih.cons_cons _

/-- The table of the keys for which a function of key and value has an
outcome, each with that outcome, in the same order. -/
def select (t : SymbolTable α) (f : Symbol → α → Option β) : SymbolTable β :=
  ⟨selectEntries f t.entries, t.nodup_keys.sublist (keys_selectEntries f t.entries)⟩

/-- Whether two tables give every key the same value, whatever the order of
their keys. -/
def sameContent [DecidableEq α] (t u : SymbolTable α) : Bool :=
  t.entries.length == u.entries.length && t.entries.all fun entry => u.get? entry.1 == some entry.2

/-- The keys as a set. -/
def keySet (t : SymbolTable α) : SymbolSet := SymbolSet.ofList t.keys

end SymbolTable

end PredictiveParsing
