/-!
# Tables

A table is a list of rows whose keys are distinct, in the order in which the keys were first
inserted. A row with a key that is already present takes the place of the old one.
-/

namespace Waveform

/-- Rows with distinct keys, in order of first insertion. -/
structure Table {Row Key : Type} (key : Row → Key) where
  rows : List Row
  distinct : (rows.map key).Nodup

namespace Table

variable {Row Key : Type} {key : Row → Key}

@[ext] theorem ext {left right : Table key} (hrows : left.rows = right.rows) : left = right := by
  cases left
  cases right
  cases hrows
  rfl

def empty : Table key := ⟨[], List.nodup_nil⟩

def size (table : Table key) : Nat := table.rows.length

def keys (table : Table key) : List Key := table.rows.map key

def isEmpty (table : Table key) : Bool := table.rows.isEmpty

variable [DecidableEq Key]

def get? (table : Table key) (wanted : Key) : Option Row :=
  table.rows.find? fun row => key row = wanted

omit [DecidableEq Key] in
@[simp] theorem keys_empty : (empty : Table key).keys = [] := rfl

@[simp] theorem get?_empty (wanted : Key) : (empty : Table key).get? wanted = none := rfl

theorem key_of_get? {table : Table key} {wanted : Key} {row : Row}
    (hrow : table.get? wanted = some row) : key row = wanted := by
  simpa using List.find?_some hrow

theorem mem_keys_iff {table : Table key} {wanted : Key} :
    wanted ∈ table.keys ↔ ∃ row, table.get? wanted = some row := by
  rw [← Option.isSome_iff_exists, get?, List.find?_isSome, keys, List.mem_map]
  simp only [decide_eq_true_eq]

/-! ### Inserting -/

def insertInto (key : Row → Key) (row : Row) : List Row → List Row
  | [] => [row]
  | first :: rest => if key first = key row then row :: rest else first :: insertInto key row rest

theorem map_insertInto (row : Row) (rows : List Row) :
    (insertInto key row rows).map key =
      if key row ∈ rows.map key then rows.map key else rows.map key ++ [key row] := by
  induction rows with
  | nil => simp [insertInto]
  | cons first rest ih =>
    by_cases hkey : key first = key row
    · simp [insertInto, hkey]
    · have hne : key row ≠ key first := Ne.symm hkey
      simp only [insertInto, hkey, if_false, List.map_cons, ih, List.mem_cons, hne, false_or]
      split <;> simp

theorem nodup_insertInto (row : Row) {rows : List Row} (hdistinct : (rows.map key).Nodup) :
    ((insertInto key row rows).map key).Nodup := by
  rw [map_insertInto]
  split
  · exact hdistinct
  · next hfresh =>
    rw [List.nodup_append]
    exact ⟨hdistinct, by simp, fun a ha b hb => by
      rw [List.mem_singleton.1 hb]; exact fun heq => hfresh (heq ▸ ha)⟩

theorem find?_insertInto (row : Row) (rows : List Row) (wanted : Key) :
    (insertInto key row rows).find? (fun row => key row = wanted) =
      if key row = wanted then some row else rows.find? fun row => key row = wanted := by
  induction rows with
  | nil => by_cases hkey : key row = wanted <;> simp [insertInto, hkey]
  | cons first rest ih =>
    by_cases hsame : key first = key row
    · by_cases hkey : key row = wanted <;> simp [insertInto, hsame, hkey]
    · by_cases hfirst : key first = wanted
      · have hkey : key row ≠ wanted := fun heq => hsame (hfirst.trans heq.symm)
        rw [insertInto, if_neg hsame]
        simp [hfirst, hkey]
      · simp [insertInto, hsame, hfirst, ih]

/-- Puts a row in the place of the one with its key, or behind all others. -/
def insert (table : Table key) (row : Row) : Table key :=
  ⟨insertInto key row table.rows, nodup_insertInto row table.distinct⟩

theorem keys_insert (table : Table key) (row : Row) :
    (table.insert row).keys =
      if key row ∈ table.keys then table.keys else table.keys ++ [key row] :=
  map_insertInto row table.rows

theorem get?_insert (table : Table key) (row : Row) (wanted : Key) :
    (table.insert row).get? wanted = if key row = wanted then some row else table.get? wanted :=
  find?_insertInto row table.rows wanted

/-! ### Changing and erasing -/

/-- Changes the row of a key, if there is one, in a way that keeps its key. -/
def modify (table : Table key) (wanted : Key) (change : Row → Row)
    (keeps : ∀ row, key (change row) = key row) : Table key where
  rows := table.rows.map fun row => if key row = wanted then change row else row
  distinct := by
    have hkeys : (key ∘ fun row => if key row = wanted then change row else row) = key := by
      funext row
      simp only [Function.comp_apply]
      split
      · exact keeps row
      · rfl
    rw [List.map_map, hkeys]
    exact table.distinct

theorem keys_modify (table : Table key) (wanted : Key) (change : Row → Row)
    (keeps : ∀ row, key (change row) = key row) :
    (table.modify wanted change keeps).keys = table.keys := by
  simp only [keys, modify, List.map_map]
  apply List.map_congr_left
  intro row _
  simp only [Function.comp_apply]
  split
  · exact keeps row
  · rfl

theorem get?_modify (table : Table key) (wanted : Key) (change : Row → Row)
    (keeps : ∀ row, key (change row) = key row) (asked : Key) :
    (table.modify wanted change keeps).get? asked =
      if asked = wanted then (table.get? asked).map change else table.get? asked := by
  have hkey : ∀ row, key (if key row = wanted then change row else row) = key row := by
    intro row
    split
    · exact keeps row
    · rfl
  simp only [get?, modify, List.find?_map, Function.comp_def, hkey]
  cases hfound : table.rows.find? (fun row => key row = asked) with
  | none => simp
  | some row =>
    have hrow : key row = asked := by simpa using List.find?_some hfound
    by_cases hasked : asked = wanted <;> simp [hrow, hasked]

theorem modify_of_get?_eq_none {table : Table key} {wanted : Key}
    (hnone : table.get? wanted = none) (change : Row → Row)
    (keeps : ∀ row, key (change row) = key row) :
    table.modify wanted change keeps = table := by
  ext1
  rw [get?, List.find?_eq_none] at hnone
  have hrows : ∀ row ∈ table.rows, (if key row = wanted then change row else row) = row := by
    intro row hmem
    rw [if_neg (by simpa using hnone row hmem)]
  exact (List.map_congr_left hrows).trans (List.map_id _)

def erase (table : Table key) (unwanted : Key) : Table key where
  rows := table.rows.filter fun row => key row ≠ unwanted
  distinct := (List.filter_sublist.map key).nodup table.distinct

theorem keys_erase (table : Table key) (unwanted : Key) :
    (table.erase unwanted).keys = table.keys.filter fun kept => kept ≠ unwanted := by
  simp [keys, erase, List.filter_map, Function.comp_def]

theorem get?_erase (table : Table key) (unwanted asked : Key) :
    (table.erase unwanted).get? asked = if asked = unwanted then none else table.get? asked := by
  simp only [get?, erase, List.find?_filter]
  by_cases hasked : asked = unwanted
  · subst hasked
    simp
  · rw [if_neg hasked]
    congr 1
    funext row
    by_cases hrow : key row = asked <;> simp [hrow, hasked]

end Table

end Waveform
