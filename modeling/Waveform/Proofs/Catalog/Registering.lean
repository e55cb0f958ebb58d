import Waveform.Catalog.Standard
import Waveform.Proofs.History

/-!
# Runs of a catalog

A catalog is a function of the requests that have made it. Its names are those that were ever
registered, in the order of their first registration; a signal is as its last registration says, and
has the decomposition that it was given last since then. The standard catalog is such a run itself,
so this holds of whatever is made from it. Main statement: `after_refines_history`.
-/

namespace Waveform.Catalog

open Waveform.Formula Waveform.Energy

/-- What can be asked of a catalog. -/
inductive Request where
  | register (name formula : String) (duration : Duration)
  | setDecomposition (name : String) (decomposition : Decomposition)

def Request.registered? : Request → Option String
  | .register name _ _ => some name
  | .setDecomposition _ _ => none

def Request.decompositionFor? (name : String) : Request → Option Decomposition
  | .register _ _ _ => none
  | .setDecomposition given decomposition => if given = name then some decomposition else none

def serve (catalog : Catalog) : Request → Catalog
  | .register name formula duration => register catalog name formula duration
  | .setDecomposition name decomposition => (setDecomposition catalog name decomposition).2

def after (catalog : Catalog) (history : List Request) : Catalog := history.foldl serve catalog

/-! ### What a history says -/

def registeredNames (history : List Request) : List String :=
  (history.filterMap Request.registered?).eraseDups

/-- The last registration of a name, and the last decomposition that it was given since then. -/
def LastMade (history : List Request) (name : String) (signal : Signal) : Prop :=
  ∃ earlier later, history = earlier ++ .register name signal.formula signal.duration :: later ∧
    (∀ request ∈ later, request.registered? ≠ some name) ∧
    signal.decomposition = (later.filterMap (Request.decompositionFor? name)).getLast?

theorem registeredNames_register (history : List Request) (name formula : String)
    (duration : Duration) :
    registeredNames (history ++ [.register name formula duration]) =
      if name ∈ registeredNames history then registeredNames history
      else registeredNames history ++ [name] := by
  rw [registeredNames, registeredNames, List.filterMap_append, List.eraseDups_append]
  simp only [List.mem_eraseDups]
  show _ ++ (List.removeAll [name] _).eraseDups = _
  generalize history.filterMap Request.registered? = names
  split
  · next hold => simp [List.removeAll, hold]
  · next hnew => simp [List.removeAll, hnew, List.eraseDups_cons]

theorem registeredNames_setDecomposition (history : List Request) (name : String)
    (decomposition : Decomposition) :
    registeredNames (history ++ [.setDecomposition name decomposition]) =
      registeredNames history := by
  rw [registeredNames, List.filterMap_append]
  show (_ ++ []).eraseDups = _
  rw [List.append_nil, registeredNames]

theorem lastMade_register (history : List Request) (name formula : String) (duration : Duration) :
    LastMade (history ++ [.register name formula duration]) name
      (Signal.ofFormula name formula duration) :=
  ⟨history, [], rfl, by simp, rfl⟩

namespace LastMade

variable {history : List Request} {name : String} {signal : Signal}

/-- A request about another name changes nothing about this one. -/
theorem other {request : Request} (h : LastMade history name signal)
    (hregistered : request.registered? ≠ some name)
    (hdecomposition : request.decompositionFor? name = none) :
    LastMade (history ++ [request]) name signal := by
  obtain ⟨earlier, later, rfl, hlater, hlast⟩ := h
  refine ⟨earlier, later ++ [request], by simp, ?_, ?_⟩
  · rw [List.forall_mem_append, List.forall_mem_singleton]
    exact ⟨hlater, hregistered⟩
  · rw [List.filterMap_append, List.filterMap_cons_none hdecomposition, List.filterMap_nil,
      List.append_nil]
    exact hlast

theorem setDecomposition (h : LastMade history name signal) (decomposition : Decomposition) :
    LastMade (history ++ [.setDecomposition name decomposition]) name
      (signal.withDecomposition decomposition) := by
  obtain ⟨earlier, later, rfl, hlater, -⟩ := h
  refine ⟨earlier, later ++ [.setDecomposition name decomposition], ?_, ?_, ?_⟩
  · simp [Signal.withDecomposition]
  · rw [List.forall_mem_append, List.forall_mem_singleton]
    exact ⟨hlater, by simp [Request.registered?]⟩
  · simp [Request.decompositionFor?, Signal.withDecomposition]

end LastMade

/-! ### One request -/

/-- A catalog is what its history says. -/
structure Reflects (history : List Request) (catalog : Catalog) : Prop where
  keys_eq : catalog.keys = registeredNames history
  signals : ∀ {name signal}, catalog.get? name = some signal →
    LastMade history name signal ∧ signal.program = compile signal.formula

theorem reflects_empty : Reflects [] empty where
  keys_eq := rfl
  signals hsignal := by cases hsignal

theorem get?_register (catalog : Catalog) (name formula : String) (duration : Duration)
    (asked : String) :
    (register catalog name formula duration).get? asked =
      if name = asked then some (Signal.ofFormula name formula duration)
      else catalog.get? asked :=
  Table.get?_insert ..

theorem get?_setDecomposition (catalog : Catalog) (name : String) (decomposition : Decomposition)
    (asked : String) :
    (setDecomposition catalog name decomposition).2.get? asked =
      if asked = name then (catalog.get? asked).map (·.withDecomposition decomposition)
      else catalog.get? asked :=
  Table.get?_modify catalog name (fun signal : Signal => signal.withDecomposition decomposition)
    (fun _ => rfl) asked

theorem keys_setDecomposition (catalog : Catalog) (name : String) (decomposition : Decomposition) :
    (setDecomposition catalog name decomposition).2.keys = catalog.keys :=
  Table.keys_modify catalog name (fun signal : Signal => signal.withDecomposition decomposition)
    fun _ => rfl

namespace Reflects

variable {history : List Request} {catalog : Catalog}

theorem register (h : Reflects history catalog) (name formula : String) (duration : Duration) :
    Reflects (history ++ [.register name formula duration])
      (register catalog name formula duration) where
  keys_eq := by
    rw [registeredNames_register, ← h.keys_eq]
    exact Table.keys_insert ..
  signals := by
    intro asked signal hsignal
    rw [get?_register] at hsignal
    split at hsignal
    · next hsame =>
      subst hsame
      obtain rfl := Option.some.inj hsignal
      exact ⟨lastMade_register .., rfl⟩
    · next hother =>
      obtain ⟨hmade, hprogram⟩ := h.signals hsignal
      exact ⟨hmade.other (by simpa [Request.registered?] using hother) rfl, hprogram⟩

theorem setDecomposition (h : Reflects history catalog) (name : String)
    (decomposition : Decomposition) :
    Reflects (history ++ [.setDecomposition name decomposition])
      (setDecomposition catalog name decomposition).2 where
  keys_eq := by
    rw [registeredNames_setDecomposition, ← h.keys_eq]
    exact keys_setDecomposition ..
  signals := by
    intro asked signal hsignal
    rw [get?_setDecomposition] at hsignal
    split at hsignal
    · next hsame =>
      subst hsame
      obtain ⟨signal, hfound, rfl⟩ := Option.map_eq_some_iff.mp hsignal
      obtain ⟨hmade, hprogram⟩ := h.signals hfound
      exact ⟨hmade.setDecomposition decomposition, hprogram⟩
    · next hother =>
      obtain ⟨hmade, hprogram⟩ := h.signals hsignal
      exact ⟨hmade.other (by simp [Request.registered?])
        (by simp [Request.decompositionFor?, Ne.symm hother]), hprogram⟩

theorem serve (h : Reflects history catalog) (request : Request) :
    Reflects (history ++ [request]) (serve catalog request) := by
  cases request with
  | register name formula duration => exact h.register name formula duration
  | setDecomposition name decomposition => exact h.setDecomposition name decomposition

end Reflects

theorem reflects_after (history : List Request) : Reflects history (after empty history) :=
  foldl_preserves reflects_empty (fun _ _ request h => h.serve request) history

/-! ### The standard catalog -/

/-- The requests that make the standard catalog. Steps that do not compile are left out. -/
def standardHistory : List Request :=
  standardSignals.map (fun (name, formula, duration) => .register name formula duration) ++
    standardDecompositions.filterMap fun (name, combination, parts) =>
      (Decomposition.compile combination parts).toOption.map (.setDecomposition name)

theorem after_standardHistory : after empty standardHistory = standard := by
  rw [after, standardHistory, List.foldl_append, List.foldl_map, List.foldl_filterMap, standard]
  congr 1
  funext catalog (name, combination, parts)
  show _ = decompose catalog name combination parts
  dsimp only [decompose]
  cases Decomposition.compile combination parts with
  | ok decomposition => rfl
  | error error => rfl

inductive Start where
  | empty
  | standard

namespace Start

def catalog : Start → Catalog
  | empty => Catalog.empty
  | standard => Catalog.standard

/-- The requests that have made the catalog to start from. -/
def history : Start → List Request
  | empty => []
  | standard => standardHistory

theorem after_eq (start : Start) (requests : List Request) :
    after start.catalog requests = after Catalog.empty (start.history ++ requests) := by
  rw [after, after, List.foldl_append]
  cases start with
  | empty => rfl
  | standard => exact congrArg (requests.foldl serve) after_standardHistory.symm

end Start

/-! ### Main statement -/

/--
A catalog is an insertion-ordered map. Whatever has been asked of it, its names are distinct and in
the order of first registration, and each signal is as its last registration says, with its formula
compiled and the decomposition that it was given last since then. Registering touches one name, and
so does setting a decomposition, which is refused exactly if the name is not registered.
-/
theorem after_refines_history (start : Start) (requests : List Request) :
    let catalog := after start.catalog requests
    let history := start.history ++ requests
    (catalog.keys.Nodup ∧ catalog.keys = registeredNames history) ∧
    (∀ name ∈ catalog.keys, ∃ signal, catalog.get? name = some signal ∧ signal.name = name ∧
      LastMade history name signal ∧ signal.program = compile signal.formula) ∧
    (∀ name formula duration,
      (register catalog name formula duration).get? name =
        some ⟨name, formula, duration, compile formula, none⟩ ∧
      (register catalog name formula duration).keys =
        (if name ∈ catalog.keys then catalog.keys else catalog.keys ++ [name]) ∧
      ∀ other, other ≠ name →
        (register catalog name formula duration).get? other = catalog.get? other) ∧
    ∀ name decomposition,
      ((setDecomposition catalog name decomposition).1 = true ↔ name ∈ catalog.keys) ∧
      ((setDecomposition catalog name decomposition).1 = false →
        (setDecomposition catalog name decomposition).2 = catalog) ∧
      (setDecomposition catalog name decomposition).2.get? name =
        (catalog.get? name).map (·.withDecomposition decomposition) ∧
      (setDecomposition catalog name decomposition).2.keys = catalog.keys ∧
      ∀ other, other ≠ name →
        (setDecomposition catalog name decomposition).2.get? other = catalog.get? other := by
  intro catalog history
  have h : Reflects history catalog := by
    rw [show catalog = after empty history from start.after_eq requests]
    exact reflects_after history
  refine ⟨⟨catalog.distinct, h.keys_eq⟩, fun name hname => ?_, fun name formula duration => ?_,
    fun name decomposition => ?_⟩
  · obtain ⟨signal, hsignal⟩ := Table.mem_keys_iff.mp hname
    exact ⟨signal, hsignal, Table.key_of_get? hsignal, h.signals hsignal⟩
  · refine ⟨?_, Table.keys_insert .., fun other hother => ?_⟩
    · rw [get?_register, if_pos rfl]
      rfl
    · rw [get?_register, if_neg (Ne.symm hother)]
  · refine ⟨?_, fun hrefused => ?_, ?_, keys_setDecomposition .., fun other hother => ?_⟩
    · rw [Table.mem_keys_iff]
      exact Option.isSome_iff_exists
    · have hnone : (catalog.get? name).isSome = false := hrefused
      exact Table.modify_of_get?_eq_none (by simpa using hnone)
        (fun signal : Signal => signal.withDecomposition decomposition) fun _ => rfl
    · rw [get?_setDecomposition, if_pos rfl]
    · rw [get?_setDecomposition, if_neg hother]

end Waveform.Catalog
