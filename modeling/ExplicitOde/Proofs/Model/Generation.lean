import ExplicitOde.Code.Source
import ExplicitOde.Proofs.Code.Kernel
import ExplicitOde.Proofs.Declaration.Model
import ExplicitOde.Scalar.Double

/-!
# Accepted models have functions and code

Nothing on the way from a model that fits to the code of its functions is refused, whatever its
dimensions are, zero included; only the gateway in single precision is. What a text declares is a
model that fits.
-/

namespace ExplicitOde

open SymbolicFunction

variable {α : Type}

/-- **Every accepted function has code, unless a gateway is wanted in single precision.** -/
theorem generateCode_ok_iff [Written α] {f : SymbolicFunction α} (hf : Accepted f.inputs f.outputs)
    (options : CodeOptions) :
    (∃ code, generateCode options f = .ok code) ↔
      ¬(options.gateway = .mex ∧ options.floats = .single) := by
  have hfloats : options.floats = .single ↔ options.floats ≠ .double := by
    cases options.floats <;> simp
  rw [hfloats]
  by_cases hrefused : options.gateway = .mex ∧ options.floats ≠ .double
  · have hcheck : options.check = .error .gatewayPrecision := if_pos hrefused
    refine iff_of_false ?_ (not_not.mpr hrefused)
    rintro ⟨code, hcode⟩
    rw [generateCode, hcheck] at hcode
    injection hcode
  · have hcheck : options.check = .ok () := if_neg hrefused
    refine iff_of_true ?_ hrefused
    obtain ⟨kernel, hkernel⟩ := Kernel.exists_ofFunction hf
    rw [generateCode, hcheck, hkernel]
    exact ⟨_, rfl⟩

namespace Model

variable [Scalar α]

/-- **A model that fits has functions of the expected kinds and shapes, and code for each of them;
what a text declares is such a model.** -/
theorem functions_generate [Written α] :
    (∀ {m : Model α} {representation : Representation} {nx nu next : Nat},
      m.WellPosed representation nx nu next →
      ∃ s, (m.sensitivities next).1 = .ok s ∧ m.Typed (.ofRepresentation representation) nx nu s ∧
        ∀ (k : FunctionKind) (options : CodeOptions),
          (∃ code, generateCode options (s.get k) = .ok code) ↔
            ¬(options.gateway = .mex ∧ options.floats = .single)) ∧
    ∀ (text : String) (n : Nat) {m : Model α} {next : Nat},
      (Declaration.modelOfText text : Attempt DescriptionError (Model α)) n = (.ok m, next) →
      ∃ s, (m.sensitivities next).1 = .ok s := by
  refine ⟨fun h => ?_, fun text n m next h => ?_⟩
  · obtain ⟨s, hs, htyped⟩ := h.exists_typed
    exact ⟨s, hs, htyped, fun k options => generateCode_ok_iff (htyped.accepted k) options⟩
  · obtain ⟨_, _, _, _, _, _, hwellPosed, _⟩ := Declaration.modelOfText_fits h
    exact hwellPosed.sensitivities

/-- The model of one state, one control and one parameter in double precision, and its text. -/
theorem functions_generate_driven :
    (∃ s, ((Declaration.drivenModel Float).sensitivities 5).1 = .ok s ∧
      (Declaration.drivenModel Float).Typed .sx 1 1 s ∧
        ∃ code, generateCode {} (s.get .hessian) = .ok code) ∧
    (Declaration.modelOfText Declaration.drivenText : Attempt DescriptionError (Model Float)) 0 =
        (.ok (Declaration.drivenModel Float), 5) ∧
      ∃ s, ((Declaration.drivenModel Float).sensitivities 5).1 = .ok s := by
  obtain ⟨hfits, htext⟩ := @functions_generate Float _ _
  obtain ⟨s, hs, htyped, hcode⟩ := hfits Declaration.drivenModel_wellPosed
  refine ⟨⟨s, hs, htyped, (hcode .hessian {}).mpr fun h => ?_⟩, Declaration.modelOfText_driven,
    htext Declaration.drivenText 0 Declaration.modelOfText_driven⟩
  exact absurd h.1 (by decide)

end Model

end ExplicitOde
