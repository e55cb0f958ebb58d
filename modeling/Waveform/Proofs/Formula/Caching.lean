import Mathlib.Data.Set.Card
import Waveform.Formula.Cache
import Waveform.Proofs.Formula.Acceptance
import Waveform.Proofs.History

/-!
# Runs of a cache

A cache answers as if there were no cache. What it keeps is a function of the requests that it has
served: the formulas that compiled when they were asked for, and that were not invalidated or
cleared since. One request preserves that each kept program is the compilation of its own formula
under the limit of the cache, so every run does. Main statement: `after_transparent`.
-/

namespace Waveform.Formula

theorem source_of_compileWith {source : String} {maxNodes : Nat} {program : Program}
    (hprogram : compileWith source maxNodes = .ok program) : program.source = source := by
  obtain ⟨tokens, -, hread⟩ := compileWith_eq_ok.mp hprogram
  exact (Program.ofTokens_eq_ok.mp hread).2

namespace Cache

/-- What can be asked of a cache. -/
inductive Request where
  | getOrCompile (source : String)
  | invalidate (source : String)
  | clear
  deriving DecidableEq

def serve (cache : Cache) : Request → Cache
  | .getOrCompile source => (cache.getOrCompile source).2
  | .invalidate source => (cache.invalidate source).2
  | .clear => cache.clear

def after (cache : Cache) (history : List Request) : Cache := history.foldl serve cache

/-- A formula compiled when it was asked for, and no later request has dropped it. -/
def Kept (maxNodes : Nat) (history : List Request) (source : String) : Prop :=
  Since
    (fun request =>
      request = .getOrCompile source ∧ ∃ program, compileWith source maxNodes = .ok program)
    (fun request => request = .invalidate source ∨ request = .clear) history

/-! ### One request -/

/-- A cache keeps what its history says, and each program is the compilation of its formula. -/
structure Reflects (maxNodes : Nat) (history : List Request) (cache : Cache) : Prop where
  maxNodes_eq : cache.maxNodes = maxNodes
  get?_eq_some : ∀ {source program}, cache.programs.get? source = some program ↔
    Kept maxNodes history source ∧ compileWith source maxNodes = .ok program

theorem reflects_empty (maxNodes : Nat) : Reflects maxNodes [] (empty maxNodes) where
  maxNodes_eq := rfl
  get?_eq_some := by
    intro source program
    constructor
    · intro hprogram
      cases hprogram
    · intro hkept
      exact absurd hkept.1 not_since_nil

theorem getOrCompile_of_error {cache : Cache} {source : String} {error : FormulaError}
    (herror : (cache.getOrCompile source).1 = .error error) :
    (cache.getOrCompile source).2 = cache := by
  rw [getOrCompile] at herror ⊢
  split
  · rfl
  · next hmiss =>
    simp only [hmiss] at herror
    split
    · next program hprogram => simp [hprogram] at herror
    · rfl

namespace Reflects

variable {maxNodes : Nat} {history : List Request} {cache : Cache}

theorem mem_keys (h : Reflects maxNodes history cache) {source : String} :
    source ∈ cache.programs.keys ↔ Kept maxNodes history source := by
  rw [Table.mem_keys_iff]
  constructor
  · rintro ⟨program, hprogram⟩
    exact (h.get?_eq_some.mp hprogram).1
  · intro hkept
    obtain ⟨-, -, -, -, ⟨-, program, hprogram⟩, -⟩ := id hkept
    exact ⟨program, h.get?_eq_some.mpr ⟨hkept, hprogram⟩⟩

/-- A formula is answered with its compilation, whether it was kept or not. -/
theorem getOrCompile_eq (h : Reflects maxNodes history cache) (source : String) :
    (cache.getOrCompile source).1 = compileWith source maxNodes := by
  rw [getOrCompile, h.maxNodes_eq]
  split
  · next program hprogram => exact (h.get?_eq_some.mp hprogram).2.symm
  · split
    · next program hprogram => exact hprogram.symm
    · next error herror => exact herror.symm

theorem get?_getOrCompile (h : Reflects maxNodes history cache) (source asked : String) :
    (cache.getOrCompile source).2.programs.get? asked =
      if source = asked then (compileWith source maxNodes).toOption
      else cache.programs.get? asked := by
  rw [getOrCompile, h.maxNodes_eq]
  split
  · next program hprogram =>
    split
    · next hsame =>
      rw [← hsame, hprogram, (h.get?_eq_some.mp hprogram).2]
      rfl
    · rfl
  · next hmiss =>
    split
    · next program hprogram =>
      show (cache.programs.insert program).get? asked = _
      rw [Table.get?_insert, source_of_compileWith hprogram, hprogram]
      rfl
    · next error herror =>
      split
      · next hsame =>
        rw [← hsame, herror]
        exact hmiss
      · rfl

theorem serve (h : Reflects maxNodes history cache) (request : Request) :
    Reflects maxNodes (history ++ [request]) (cache.serve request) where
  maxNodes_eq := by
    cases request with
    | getOrCompile source =>
        rw [Cache.serve, getOrCompile]
        split
        · exact h.maxNodes_eq
        · split <;> exact h.maxNodes_eq
    | invalidate source => exact h.maxNodes_eq
    | clear => exact h.maxNodes_eq
  get?_eq_some := by
    intro asked program
    rw [Kept, since_concat]
    cases request with
    | getOrCompile source =>
        rw [Cache.serve, h.get?_getOrCompile]
        split
        · next hsame =>
          subst hsame
          cases hresult : compileWith source maxNodes with
          | error error => simp [Except.toOption]
          | ok result => simp [Except.toOption]
        · next hother =>
          rw [h.get?_eq_some]
          simp [hother, Kept]
    | invalidate source =>
        show (cache.programs.erase source).get? asked = _ ↔ _
        rw [Table.get?_erase]
        split
        · next hsame => simp [hsame]
        · next hother =>
          rw [h.get?_eq_some]
          simp [Ne.symm hother, Kept]
    | clear =>
        show (Table.empty : Table Program.source).get? asked = _ ↔ _
        simp

end Reflects

theorem reflects_after (maxNodes : Nat) (history : List Request) :
    Reflects maxNodes history ((empty maxNodes).after history) :=
  foldl_preserves (reflects_empty maxNodes) (fun _ _ request h => h.serve request) history

/-! ### Main statement -/

theorem size_eq_ncard (cache : Cache) :
    cache.size = {source | source ∈ cache.programs.keys}.ncard := by
  have hdistinct : cache.programs.keys.Nodup := cache.programs.distinct
  rw [← List.coe_toFinset, Set.ncard_coe_finset, List.toFinset_card_of_nodup hdistinct]
  exact (List.length_map _).symm

/--
A cache is transparent. After any history each formula is answered with its compilation under the
limit of the cache; exactly the formulas that the history keeps are kept, once each, with their own
compilations; a formula that does not compile changes nothing; and invalidating a formula yields
its program if it is kept, and drops it alone.
-/
theorem after_transparent (maxNodes : Nat) (history : List Request) :
    let cache := (empty maxNodes).after history
    (∀ source, (cache.getOrCompile source).1 = compileWith source maxNodes) ∧
    (cache.programs.keys.Nodup ∧
      ∀ source, source ∈ cache.programs.keys ↔ Kept maxNodes history source) ∧
    (∀ source program, cache.programs.get? source = some program →
      program.source = source ∧ compileWith source maxNodes = .ok program) ∧
    (cache.size = {source | Kept maxNodes history source}.ncard ∧
      (cache.isEmpty = true ↔ ∀ source, ¬Kept maxNodes history source)) ∧
    (∀ source error, (cache.getOrCompile source).1 = .error error →
      (cache.getOrCompile source).2 = cache) ∧
    ∀ source,
      (∀ program, (cache.invalidate source).1 = some program ↔
        Kept maxNodes history source ∧ compileWith source maxNodes = .ok program) ∧
      (cache.invalidate source).2.programs.keys = cache.programs.keys.filter (· ≠ source) ∧
      ∀ other, other ≠ source →
        (cache.invalidate source).2.programs.get? other = cache.programs.get? other := by
  intro cache
  have h : Reflects maxNodes history cache := reflects_after maxNodes history
  refine ⟨h.getOrCompile_eq, ⟨cache.programs.distinct, fun source => h.mem_keys⟩,
    fun source program hprogram => ⟨Table.key_of_get? hprogram, (h.get?_eq_some.mp hprogram).2⟩,
    ⟨?_, ?_⟩, fun source error herror => getOrCompile_of_error herror,
    fun source => ⟨fun program => h.get?_eq_some, Table.keys_erase _ _, fun other hother => ?_⟩⟩
  · rw [size_eq_ncard]
    simp only [h.mem_keys]
  · have hempty : cache.isEmpty = true ↔ cache.programs.keys = [] := by
      rw [Cache.isEmpty, Table.isEmpty, List.isEmpty_iff, Table.keys, List.map_eq_nil_iff]
    rw [hempty, List.eq_nil_iff_forall_not_mem]
    simp only [h.mem_keys]
  · show (cache.programs.erase source).get? other = _
    rw [Table.get?_erase, if_neg hother]

end Cache

end Waveform.Formula
