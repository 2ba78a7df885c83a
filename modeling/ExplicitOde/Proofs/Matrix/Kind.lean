import ExplicitOde.Matrix.Arithmetic
import Mathlib.Data.List.Induction

/-!
# Combined kinds

Kinds are combined from left to right, and **in whatever order they stand they come to the same**:
to a representation if one of them is of it, and to numbers if there are only numbers (`Common`).
They do not combine if both representations are among them. Then the first kind that clashes with
those before it is reported.
-/

namespace ExplicitOde

namespace Kind

/-- The kind is what these kinds come to: that of a representation if one of them is. -/
def Common (kind : Kind) (kinds : List Kind) : Prop :=
  (sx ∈ kinds ↔ kind = sx) ∧ (mx ∈ kinds ↔ kind = mx)

/-- The kinds are of different representations. -/
def Clashes (kind kind' : Kind) : Prop := kind = sx ∧ kind' = mx ∨ kind = mx ∧ kind' = sx

variable {kind kind' : Kind} {kinds before : List Kind}

theorem common_nil : Common dm [] := by simp [Common]

theorem common_singleton (kind : Kind) : kind.Common [kind] := by
  simp [Common, eq_comm]

theorem Clashes.combine?_eq_none (h : kind.Clashes kind') : kind.combine? kind' = none := by
  rcases h with ⟨rfl, rfl⟩ | ⟨rfl, rfl⟩ <;> rfl

/-- One more kind clashes with what the others come to, or combines with it. -/
theorem Common.concat (h : kind.Common kinds) (last : Kind) :
    kind.Clashes last ∨
      ∃ both, kind.combine? last = some both ∧ both.Common (kinds ++ [last]) := by
  obtain ⟨hsx, hmx⟩ := h
  cases kind <;> cases last <;> simp_all [Clashes, Common, combine?]

theorem Common.unique (h : kind.Common kinds) (h' : kind'.Common kinds) : kind = kind' := by
  obtain ⟨hsx, hmx⟩ := h
  obtain ⟨hsx', hmx'⟩ := h'
  cases kind <;> cases kind' <;> simp_all

/-- Where kinds clash they mix. -/
theorem Clashes.mixed {next : Kind} (hclash : kind.Clashes next) (h : kind.Common before)
    (after : List Kind) : sx ∈ before ++ next :: after ∧ mx ∈ before ++ next :: after := by
  rcases hclash with ⟨rfl, rfl⟩ | ⟨rfl, rfl⟩
  · exact ⟨List.mem_append_left _ (h.1.mpr rfl), by simp⟩
  · exact ⟨by simp, List.mem_append_left _ (h.2.mpr rfl)⟩

/-- Kinds that do not mix come to one. -/
theorem exists_common_iff : (∃ kind, Common kind kinds) ↔ ¬(sx ∈ kinds ∧ mx ∈ kinds) := by
  constructor
  · rintro ⟨kind, hsx, hmx⟩ ⟨h, h'⟩
    cases (hsx.mp h).symm.trans (hmx.mp h')
  · intro h
    by_cases hsx : sx ∈ kinds
    · exact ⟨sx, by simp_all [Common]⟩
    by_cases hmx : mx ∈ kinds
    · exact ⟨mx, by simp_all [Common]⟩
    · exact ⟨dm, by simp_all [Common]⟩

/-- Each of the kinds is the one that they come to, or numeric. -/
theorem Common.eq_or_dm (h : kind.Common kinds) : ∀ k ∈ kinds, k = kind ∨ k = dm := by
  obtain ⟨hsx, hmx⟩ := h
  intro k hk
  cases k with
  | sx => exact Or.inl (hsx.mp hk).symm
  | mx => exact Or.inl (hmx.mp hk).symm
  | dm => exact Or.inr rfl

/-- Kinds of one representation and numbers come to one of the two, and to the representation if it
is among them. -/
theorem exists_common_of_forall (h : ∀ k ∈ kinds, k = kind ∨ k = dm) :
    ∃ r : Kind, r.Common kinds ∧ (r = kind ∨ r = dm) ∧ (kind ∈ kinds → r = kind) := by
  have hone : ∀ k, k ≠ dm → (k ∈ kinds ↔ kind ∈ kinds ∧ kind = k) := by
    intro k hk
    constructor
    · intro hmem
      obtain rfl := (h k hmem).resolve_right hk
      exact ⟨hmem, rfl⟩
    · rintro ⟨hmem, rfl⟩
      exact hmem
  have hsx := hone sx (by decide)
  have hmx := hone mx (by decide)
  by_cases hmem : kind ∈ kinds
  · rw [and_iff_right hmem] at hsx hmx
    exact ⟨kind, ⟨hsx, hmx⟩, Or.inl rfl, fun _ => rfl⟩
  · refine ⟨dm, ⟨hsx.trans ?_, hmx.trans ?_⟩, Or.inr rfl, fun h => absurd h hmem⟩
    · exact iff_of_false (fun h => hmem h.1) (by decide)
    · exact iff_of_false (fun h => hmem h.1) (by decide)

/-- Kinds that groups come to stand for the kinds in the groups. -/
theorem common_flatten {kinds : List Kind} {groups : List (List Kind)}
    (h : List.Forall₂ (fun kind kinds => kind.Common kinds) kinds groups) :
    kind.Common groups.flatten ↔ kind.Common kinds := by
  have hmem : ∀ k, k = sx ∨ k = mx → (k ∈ groups.flatten ↔ k ∈ kinds) := by
    intro k hk
    induction h with
    | nil => exact Iff.rfl
    | @cons first group kinds groups hone _ ih =>
        have hfirst : k ∈ group ↔ k = first := by
          rcases hk with rfl | rfl
          · exact hone.1.trans eq_comm
          · exact hone.2.trans eq_comm
        rw [List.flatten_cons, List.mem_append, List.mem_cons, ih, hfirst]
  rw [Common, Common, hmem sx (Or.inl rfl), hmem mx (Or.inr rfl)]

end Kind

namespace ExprMatrix

variable {operation : Operation} {kind : Kind} {kinds before after : List Kind}

/-- Kinds come to one, or there is a first that clashes with those before it. -/
theorem combineKinds_cases (operation : Operation) (kinds : List Kind) :
    (∃ kind : Kind, kind.Common kinds ∧ combineKinds operation kinds = .ok kind) ∨
      ∃ (before after : List Kind) (kind next : Kind), kinds = before ++ next :: after ∧
        kind.Common before ∧ kind.Clashes next := by
  induction kinds using List.reverseRecOn with
  | nil => exact Or.inl ⟨.dm, Kind.common_nil, rfl⟩
  | append_singleton kinds last ih =>
      rcases ih with ⟨kind, hcommon, hrun⟩ | ⟨before, after, kind, next, rfl, hcommon, hclash⟩
      · rcases hcommon.concat last with hclash | ⟨both, hboth, hcommon'⟩
        · exact Or.inr ⟨kinds, [], kind, last, rfl, hcommon, hclash⟩
        · refine Or.inl ⟨both, hcommon', ?_⟩
          rw [combineKinds] at hrun ⊢
          rw [List.foldlM_append, hrun]
          simp [hboth, bind, Except.bind, pure, Except.pure]
      · exact Or.inr ⟨before, after ++ [last], kind, next, by simp, hcommon, hclash⟩

theorem combineKinds_of_common (operation : Operation) (h : kind.Common kinds) :
    combineKinds operation kinds = .ok kind := by
  rcases combineKinds_cases operation kinds with
    ⟨kind', h', hrun⟩ | ⟨before, after, first, next, rfl, hbefore, hclash⟩
  · rw [h.unique h', hrun]
  · exact absurd (hclash.mixed hbefore after) (Kind.exists_common_iff.mp ⟨kind, h⟩)

theorem combineKinds_of_clash (operation : Operation) {next : Kind} (h : kind.Common before)
    (hclash : kind.Clashes next) :
    combineKinds operation (before ++ next :: after) = .error (.kinds operation kind next) := by
  have hrun := combineKinds_of_common operation h
  rw [combineKinds] at hrun ⊢
  rw [List.foldlM_append, hrun]
  simp [hclash.combine?_eq_none, bind, Except.bind]

/-- Kinds combine to what they come to. -/
theorem combineKinds_eq_ok_iff : combineKinds operation kinds = .ok kind ↔ kind.Common kinds := by
  refine ⟨fun h => ?_, combineKinds_of_common operation⟩
  rcases combineKinds_cases operation kinds with
    ⟨kind', hcommon, hrun⟩ | ⟨before, after, first, next, rfl, hbefore, hclash⟩
  · obtain rfl := Except.ok.inj (h.symm.trans hrun)
    exact hcommon
  · cases h.symm.trans (combineKinds_of_clash operation hbefore hclash)

/-- Kinds of one representation and numbers combine. -/
theorem combineKinds_ok (operation : Operation) (h : ∀ k ∈ kinds, k = kind ∨ k = .dm) :
    ∃ r, combineKinds operation kinds = .ok r ∧ (r = kind ∨ r = .dm) ∧
      (kind ∈ kinds → r = kind) := by
  obtain ⟨r, hcommon, hr⟩ := Kind.exists_common_of_forall h
  exact ⟨r, combineKinds_of_common operation hcommon, hr⟩

/-- Kinds that combine are one kind, or numeric. -/
theorem combineKinds_eq_ok (h : combineKinds operation kinds = .ok kind) :
    ∀ k ∈ kinds, k = kind ∨ k = .dm :=
  (combineKinds_eq_ok_iff.mp h).eq_or_dm

end ExprMatrix

/-- The failure of an operation on matrices of two representations. -/
def Clash (e : AlgebraError) : Prop :=
  ∃ (operation : Operation) (r s : Representation), r ≠ s ∧
    e = .kinds operation (.ofRepresentation r) (.ofRepresentation s)

namespace ExprMatrix

/-- Matrices of two representations do not combine, in whatever order they stand. -/
theorem combineKinds_clash {operation : Operation} {kinds : List Kind} (hsx : .sx ∈ kinds)
    (hmx : .mx ∈ kinds) : ∃ e, combineKinds operation kinds = .error e ∧ Clash e := by
  rcases combineKinds_cases operation kinds with
    ⟨kind, hcommon, _⟩ | ⟨before, after, kind, next, rfl, hcommon, hclash⟩
  · exact absurd ⟨hsx, hmx⟩ (Kind.exists_common_iff.mp ⟨kind, hcommon⟩)
  · refine ⟨_, combineKinds_of_clash operation hcommon hclash, ?_⟩
    rcases hclash with ⟨rfl, rfl⟩ | ⟨rfl, rfl⟩
    · exact ⟨operation, .sx, .mx, by decide, rfl⟩
    · exact ⟨operation, .mx, .sx, by decide, rfl⟩

variable {α : Type} {a b : ExprMatrix α} {kind : Kind} {operation : Operation}

/-- Two kinds combine as a list of two does. -/
theorem combinePair_eq_combineKinds (operation : Operation) (a b : ExprMatrix α) :
    combinePair operation a b = combineKinds operation [a.kind, b.kind] := by
  rw [combinePair, combineKinds]
  cases a.kind <;> cases b.kind <;> rfl

theorem combinePair_eq_ok (h : combinePair operation a b = .ok kind) :
    (a.kind = kind ∨ a.kind = .dm) ∧ (b.kind = kind ∨ b.kind = .dm) := by
  rw [combinePair_eq_combineKinds] at h
  have hkinds := combineKinds_eq_ok h
  exact ⟨hkinds _ (by simp), hkinds _ (by simp)⟩

end ExprMatrix

end ExplicitOde
