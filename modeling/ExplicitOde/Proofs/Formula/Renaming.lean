import ExplicitOde.Proofs.Expr.Lockstep
import ExplicitOde.Proofs.Formula.Lower

/-!
# Formulas under other names

Names in a formula are looked up and then forgotten. So **a formula and the same formula with other
names make expressions that are alike**, if what the names stand for is alike; or neither makes one.
-/

namespace ExplicitOde

open Relator (BiUnique)
open ExplicitOde.Expr

variable {α : Type}

namespace Formula

/-- The names in a formula, those of functions apart. -/
def names : Formula α → List String
  | .number _ => []
  | .name s => [s]
  | .neg f => f.names
  | .binary _ f g => f.names ++ g.names
  | .call _ args => args.flatMap fun f => f.names

/-- Every name replaced by another. The names of functions stay. -/
def rename (r : String → String) : Formula α → Formula α
  | .number v => .number v
  | .name s => .name (r s)
  | .neg f => .neg (f.rename r)
  | .binary op f g => .binary op (f.rename r) (g.rename r)
  | .call function args => .call function (args.map fun f => f.rename r)

/-- A formula stays the same if its names do. -/
theorem rename_eq_self {r : String → String} (f : Formula α) (h : ∀ s ∈ f.names, r s = s) :
    f.rename r = f := by
  induction f using rename.induct with
  | case1 v => rw [rename]
  | case2 s => rw [rename, h s (by simp [names])]
  | case3 f ih => rw [rename, ih fun s hs => h s (by rwa [names])]
  | case4 op f g ihf ihg =>
      rw [names] at h
      rw [rename, ihf fun s hs => h s (List.mem_append_left _ hs),
        ihg fun s hs => h s (List.mem_append_right _ hs)]
  | case5 function args ih =>
      rw [names] at h
      have hargs : (args.map fun f => f.rename r) = args.map fun f => f :=
        List.map_congr_left fun f hf => ih f hf fun s hs => h s (List.mem_flatMap.mpr ⟨f, hf, hs⟩)
      rw [rename, hargs, List.map_id']

end Formula

/-- Two names that stand for expressions that are alike, or are one name that stands for none. -/
inductive NamesAlike (ρ : Nat → Nat → Prop) (table table' : SymbolTable α) (s t : String) :
    Prop where
  | found {e e' : Expr α} (h : table.lookup s = some e) (h' : table'.lookup t = some e')
      (he : e.Alike ρ e')
  | unknown (h : table.lookup s = none) (h' : table'.lookup t = none) (hst : t = s)

/-- Names that are alike make expressions that are alike, or are both refused. -/
theorem NamesAlike.together_lower [Scalar α] {ρ : Nat → Nat → Prop} {table table' : SymbolTable α}
    {s t : String} (h : NamesAlike ρ table table' s t) :
    Together ρ ((Formula.name s).lower table) ((Formula.name t).lower table') (Expr.Alike ρ) := by
  rw [Formula.lower, Formula.lower]
  cases h with
  | found hs ht he =>
      rw [hs, ht]
      exact .pure he
  | unknown hs ht hst =>
      rw [hs, ht, hst]
      dsimp only
      -- the name of the circle constant is one name on both sides
      split
      · exact .lift (inStep_mkConst _)
      · exact .throw _ _

/-- Under other names a call is refused as well that is so for the number of its arguments. -/
theorem Formula.together_lower_call [Scalar α] {ρ : Nat → Nat → Prop}
    {table table' : SymbolTable α} {r : String → String} {function : String}
    {args : List (Formula α)} (htwo : ∀ base exponent, args ≠ [base, exponent])
    (hone : ∀ arg, args ≠ [arg]) :
    Together ρ ((Formula.call function args).lower table)
      (((Formula.call function args).rename r).lower table') (Expr.Alike ρ) := by
  have htwo' : ∀ base exponent, (args.map fun f => f.rename r) ≠ [base, exponent] := by
    intro _ _ heq
    obtain ⟨base, others, rfl, -, heq⟩ := List.map_eq_cons_iff.mp heq
    obtain ⟨exponent, rfl, -⟩ := List.map_eq_singleton_iff.mp heq
    exact htwo base exponent rfl
  have hone' : ∀ arg, (args.map fun f => f.rename r) ≠ [arg] := by
    intro _ heq
    obtain ⟨arg, rfl, -⟩ := List.map_eq_singleton_iff.mp heq
    exact hone arg rfl
  rw [rename, lower_call_refused htwo hone, lower_call_refused htwo' hone', List.length_map]
  exact .throw _ _

/-- **A formula and the same with other names make expressions that are alike.** -/
theorem Formula.together_lower [Scalar α] {ρ : Nat → Nat → Prop} (hρ : BiUnique ρ)
    {table table' : SymbolTable α} {r : String → String} (f : Formula α)
    (h : ∀ s ∈ f.names, NamesAlike ρ table table' s (r s)) :
    Together ρ (f.lower table) ((f.rename r).lower table') (Expr.Alike ρ) := by
  -- along the recursion of `lower`
  induction f using Formula.lower.induct table with
  | case1 v =>
      rw [rename, lower, lower]
      exact .lift (inStep_mkConst v)
  | case2 s | case4 s =>
      rw [rename]
      exact (h s (by rw [names]; exact List.mem_singleton_self s)).together_lower
  | case3 =>
      rw [rename]
      exact (h "pi" (by rw [names]; exact List.mem_singleton_self "pi")).together_lower
  | case5 inner ih =>
      rw [names] at h
      rw [rename, lower, lower]
      exact (ih h).bind fun a a' ha => .lift (inStep_mkNeg ha)
  | case6 op lhs rhs ihl ihr =>
      rw [names] at h
      rw [rename, lower, lower]
      refine (ihl fun s hs => h s (List.mem_append_left _ hs)).bind fun a a' ha => ?_
      refine (ihr fun s hs => h s (List.mem_append_right _ hs)).bind fun b b' hb => ?_
      exact .lift (inStep_mkBinary hρ op ha hb)
  | case7 base exponent ihb ihe =>
      rw [names] at h
      rw [rename, lower, if_pos rfl, List.map_cons, List.map_cons, List.map_nil, lower,
        if_pos rfl]
      refine (ihb fun s hs => h s (by simp [hs])).bind fun a a' ha => ?_
      refine (ihe fun s hs => h s (by simp [hs])).bind fun b b' hb => ?_
      exact .lift (inStep_mkBinary hρ .pow ha hb)
  | case8 f base exponent hne =>
      rw [rename, lower, if_neg hne, List.map_cons, List.map_cons, List.map_nil, lower,
        if_neg hne]
      exact .throw _ _
  | case9 f arg op hop ih =>
      rw [names] at h
      rw [rename, lower, List.map_cons, List.map_nil, lower, hop]
      refine (ih fun s hs => h s (by simp [hs])).bind fun a a' ha => ?_
      exact .lift (inStep_mkUnary op ha)
  | case10 f arg hop =>
      rw [rename, lower, List.map_cons, List.map_nil, lower, hop]
      exact .throw _ _
  | case11 f args htwo hone => exact together_lower_call htwo hone

end ExplicitOde
