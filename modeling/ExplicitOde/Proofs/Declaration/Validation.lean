import ExplicitOde.Declaration.Validation
import ExplicitOde.Proofs.Computation
import Mathlib.Data.List.Nodup
import Mathlib.Tactic.SplitIfs

/-!
# What validation sees to

A declaration that passed validation has a name for its model, distinct identifiers for its symbols
and as many rates as states, none of them blank. Plain validation asks for nothing else.
-/

namespace ExplicitOde

namespace Declaration

/-- The names of all symbols, in the order in which they are declared. -/
def names (d : Declaration) : List String := d.x ++ d.u ++ d.parameters

theorem snd_symbols (d : Declaration) : d.symbols.map Prod.snd = d.names := by
  simp [symbols, names, Function.comp_def]

/-- Names pass if they are identifiers, distinct and new. -/
theorem checkSymbols_eq_ok_iff : ∀ {symbols : List (Role × String)} {seen : List String},
    checkSymbols seen symbols = .ok () ↔
      (∀ s ∈ symbols.map Prod.snd, isIdentifier s = true ∧ s ∉ seen) ∧
        (symbols.map Prod.snd).Nodup := by
  intro symbols
  induction symbols with
  | nil =>
      exact fun {_} => ⟨fun _ => ⟨fun s hs => absurd hs List.not_mem_nil, List.nodup_nil⟩,
        fun _ => rfl⟩
  | cons symbol symbols ih =>
      intro seen
      obtain ⟨role, name⟩ := symbol
      rw [checkSymbols, List.map_cons, List.forall_mem_cons, List.nodup_cons]
      constructor
      · intro h
        split_ifs at h with hname hseen
        -- for the names behind it, this one is among those seen
        obtain ⟨hrest, hnodup⟩ := ih.mp h
        have hnew : name ∉ seen := fun hmem => hseen (List.contains_iff_mem.mpr hmem)
        refine ⟨⟨⟨by simpa using hname, hnew⟩, fun s hs => ?_⟩, ?_, hnodup⟩
        · exact ⟨(hrest s hs).1, fun hmem => (hrest s hs).2 (List.mem_cons_of_mem name hmem)⟩
        · exact fun hmem => (hrest name hmem).2 List.mem_cons_self
      · rintro ⟨⟨⟨hname, hnew⟩, hrest⟩, hfresh, hnodup⟩
        rw [if_neg (by simp [hname]), if_neg (by simpa using hnew)]
        refine ih.mpr ⟨fun s hs => ⟨(hrest s hs).1, fun hmem => ?_⟩, hnodup⟩
        rcases List.mem_cons.mp hmem with rfl | hmem
        · exact hfresh hs
        · exact (hrest s hs).2 hmem

/-- Rates pass if there is one for every state, and none is blank. -/
theorem checkRates_eq_ok_iff {d : Declaration} :
    d.checkRates = .ok () ↔
      d.rates.length = d.x.length ∧ ∀ rate ∈ d.rates, allBlank rate = false := by
  rw [checkRates]
  by_cases hlength : d.rates.length = d.x.length
  · rw [if_neg (not_not.mpr hlength), ← List.findIdx?_eq_none_iff]
    cases hfind : d.rates.findIdx? allBlank with
    | none => exact ⟨fun _ => ⟨hlength, rfl⟩, fun _ => rfl⟩
    | some index => exact ⟨fun h => (nomatch h), fun h => (nomatch h.2)⟩
  · rw [if_pos hlength]
    exact ⟨fun h => (nomatch h), fun h => absurd h.1 hlength⟩

/-- What validation asks for. -/
theorem validate_eq_ok_iff {strictness : Strictness} {d : Declaration} :
    d.validate strictness = .ok () ↔ isIdentifier d.name = true ∧ d.x ≠ [] ∧
      checkSymbols [] d.symbols = .ok () ∧ d.checkRates = .ok () ∧
        (strictness = .strict → d.checkUse = .ok ()) := by
  rw [validate]
  by_cases hname : isIdentifier d.name = true
  swap
  · rw [if_pos (by simpa using hname)]
    exact ⟨fun h => (nomatch h), fun h => absurd h.1 hname⟩
  by_cases hempty : d.x = []
  · rw [if_neg (by simp [hname]), if_pos (List.isEmpty_iff.mpr hempty)]
    exact ⟨fun h => (nomatch h), fun h => absurd hempty h.2.1⟩
  rw [if_neg (by simp [hname]), if_neg (by simpa using hempty)]
  constructor
  · intro h
    obtain ⟨_, hsymbols, h⟩ := bind_eq_ok_iff.mp h
    obtain ⟨_, hrates, h⟩ := bind_eq_ok_iff.mp h
    refine ⟨hname, hempty, hsymbols, hrates, fun hstrict => ?_⟩
    rwa [if_pos hstrict] at h
  · rintro ⟨_, _, hsymbols, hrates, huse⟩
    refine bind_eq_ok_iff.mpr ⟨(), hsymbols, bind_eq_ok_iff.mpr ⟨(), hrates, ?_⟩⟩
    split_ifs with hstrict
    · exact huse hstrict
    · rfl

/-- **Valid declarations have distinct names, and a rate for every state.** -/
theorem validate_ok {strictness : Strictness} {d : Declaration}
    (h : d.validate strictness = .ok ()) :
    isIdentifier d.name = true ∧ d.names.Nodup ∧ d.rates.length = d.x.length := by
  obtain ⟨hname, _, hsymbols, hrates, _⟩ := validate_eq_ok_iff.mp h
  have hnodup := (checkSymbols_eq_ok_iff.mp hsymbols).2
  rw [snd_symbols] at hnodup
  exact ⟨hname, hnodup, (checkRates_eq_ok_iff.mp hrates).1⟩

end Declaration

end ExplicitOde
