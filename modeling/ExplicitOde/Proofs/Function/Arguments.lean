import ExplicitOde.Proofs.Function.Verdict
import ExplicitOde.Scalar.Double

/-!
# Which arguments a call accepts

A call wants one argument for every input, and **of an argument it asks for the right number of
values, not for the shape of the input**: the first argument with another number of values is the
one that is refused, with the shape that was expected, and a misshapen argument of the right number
is read column by column as if it had that shape. `call_iff_refusal` says so, and that nothing of
this shows as long as no argument has the right number of values in another shape.

`Refusal` is the same for what is asked and for what is expected; it takes the relation between an
input and its argument.
-/

namespace ExplicitOde

namespace SymbolicFunction

variable {α β : Type} {meaning : Interpretation α β} {name : String}
  {inputs before after : List (ExprMatrix α)} {args first last results : List (Grid β)}
  {R : ExprMatrix α → Grid β → Prop}

/-- The argument has as many values as the input has elements. -/
def SameCount (input : ExprMatrix α) (arg : Grid β) : Prop := input.numel = arg.numel

/-- The argument has the rows and the columns of the input. -/
def SameShape (input : ExprMatrix α) (arg : Grid β) : Prop := input.shape = arg.shape

/-- The values of an argument in the shape of an input, column by column. -/
def reshaped (input : ExprMatrix α) (arg : Grid β) : Grid β :=
  ⟨input.shape.1, input.shape.2, arg.cells⟩

/-- Why arguments are refused if each of them should be to its input as `R` says: there are too many
or too few of them, or one is not, and all before it are. -/
inductive Refusal (R : ExprMatrix α → Grid β → Prop) (f : SymbolicFunction α)
    (args : List (Grid β)) : AlgebraError → Prop
  | count (hcount : args.length ≠ f.inputs.length) :
      Refusal R f args (.argumentCount f.name f.inputs.length args.length)
  | shape {before after : List (ExprMatrix α)} {input : ExprMatrix α} {first last : List (Grid β)}
      {arg : Grid β} (hinputs : f.inputs = before ++ input :: after)
      (hargs : args = first ++ arg :: last) (hcount : args.length = f.inputs.length)
      (hbefore : List.Forall₂ R before first) (harg : ¬R input arg) :
      Refusal R f args (.argumentShape f.name before.length input.shape arg.shape)

/-- Lists of one length are related, or there is a first place where they are not. -/
theorem related_or_first (R : ExprMatrix α → Grid β → Prop) (inputs : List (ExprMatrix α))
    {args : List (Grid β)} (hcount : args.length = inputs.length) :
    List.Forall₂ R inputs args ∨ ∃ before input after first arg last,
      inputs = before ++ input :: after ∧ args = first ++ arg :: last ∧
        List.Forall₂ R before first ∧ ¬R input arg := by
  induction inputs generalizing args with
  | nil => exact Or.inl (List.eq_nil_of_length_eq_zero hcount ▸ .nil)
  | cons input inputs ih =>
      cases args with
      | nil => exact absurd hcount.symm (Nat.succ_ne_zero _)
      | cons arg args =>
          by_cases hR : R input arg
          swap
          · exact Or.inr ⟨[], input, inputs, [], arg, args, rfl, rfl, .nil, hR⟩
          rcases ih (Nat.succ.inj hcount) with
            hall | ⟨before, other, after, first, value, last, rfl, rfl, hbefore, hother⟩
          · exact Or.inl (.cons hR hall)
          · exact Or.inr ⟨input :: before, other, after, arg :: first, value, last, rfl, rfl,
              .cons hR hbefore, hother⟩

/-- Arguments that match are passed over. -/
theorem checkArguments_append (h : Match before first) (index : Nat) :
    checkArguments name index (before ++ inputs) (first ++ args) =
      checkArguments name (index + before.length) inputs args := by
  induction h generalizing index with
  | nil => rfl
  | cons hone _ ih =>
      rw [List.cons_append, List.cons_append, checkArguments, if_neg fun hbad => hbad.2 hone, ih,
        List.length_cons, Nat.add_right_comm, Nat.add_assoc]

theorem checkArguments_of_match (h : Match inputs args) :
    checkArguments name 0 inputs args = .ok () := by
  have hall : checkArguments name 0 (inputs ++ []) (args ++ []) = _ := checkArguments_append h 0
  rwa [List.append_nil, List.append_nil] at hall

/-- Arguments that match are accepted. -/
theorem call_of_match {f : SymbolicFunction α} (h : Match f.inputs args) :
    ∃ results, f.call meaning args = .ok results := by
  rw [call, if_neg (not_not.mpr h.length_eq.symm), checkArguments_of_match h]
  exact ⟨_, rfl⟩

/-- The first argument with another number of values is refused. -/
theorem checkArguments_of_first {input : ExprMatrix α} {arg : Grid β} (hbefore : Match before first)
    (hshape : ¬SameShape input arg) (hcount : ¬SameCount input arg) :
    checkArguments name 0 (before ++ input :: after) (first ++ arg :: last) =
      .error (.argumentShape name before.length input.shape arg.shape) := by
  rw [checkArguments_append hbefore, checkArguments, if_pos ⟨hshape, hcount⟩, Nat.zero_add]

/-- What has the shape of a full matrix, and is full, has as many values. -/
theorem SameShape.sameCount {input : ExprMatrix α} {arg : Grid β} (hinput : input.grid.Full)
    (harg : arg.Full) (h : SameShape input arg) : SameCount input arg := by
  obtain ⟨hrows, hcols⟩ := Prod.mk.inj h
  exact hinput.trans ((congrArg₂ (· * ·) hrows hcols).trans harg.symm)

section

variable {f : SymbolicFunction α} (hinputs : ∀ input ∈ f.inputs, input.grid.Full)
  (hargs : ∀ arg ∈ args, arg.Full)
  (hR : ∀ input arg, (input, arg) ∈ f.inputs.zip args → (R input arg ↔ SameCount input arg))

include hinputs hargs hR

/-- Where `R` comes down to the number of values, what breaks it is refused. -/
theorem call_of_refusal {e : AlgebraError} (h : Refusal R f args e) :
    f.call meaning args = .error e := by
  cases h with
  | count hcount =>
      rw [call, if_pos hcount]
      rfl
  | @shape before after input first last arg hsplit hargsSplit hcount hbefore harg =>
      have hpairs : f.inputs.zip args =
          before.zip first ++ (input, arg) :: after.zip last := by
        rw [hsplit, hargsSplit, List.zip_append hbefore.length_eq, List.zip_cons_cons]
      rw [hpairs] at hR
      have hmatch : Match before first := by
        obtain ⟨hlength, hall⟩ := List.forall₂_iff_zip.mp hbefore
        refine List.forall₂_iff_zip.mpr ⟨hlength, fun {_ _} hmem => ?_⟩
        exact (hR _ _ (List.mem_append_left _ hmem)).mp (hall hmem)
      have hnumel : ¬SameCount input arg :=
        fun h => harg ((hR _ _ (List.mem_append_right _ List.mem_cons_self)).mpr h)
      have hshape : ¬SameShape input arg := fun h =>
        hnumel (h.sameCount (hinputs input (by simp [hsplit])) (hargs arg (by simp [hargsSplit])))
      rw [call, if_neg (not_not.mpr hcount), hsplit, hargsSplit,
        checkArguments_of_first hmatch hshape hnumel]
      rfl

/-- Where `R` comes down to the number of values, arguments are refused for breaking it, and
accepted if they do not. -/
theorem call_iff_of_sameCount :
    (∀ e, f.call meaning args = .error e ↔ Refusal R f args e) ∧
    ((∃ results, f.call meaning args = .ok results) ↔ List.Forall₂ R f.inputs args) := by
  have hmatch : List.Forall₂ R f.inputs args → Match f.inputs args := by
    intro h
    obtain ⟨hlength, hall⟩ := List.forall₂_iff_zip.mp h
    exact List.forall₂_iff_zip.mpr ⟨hlength, fun {_ _} hmem => (hR _ _ hmem).mp (hall hmem)⟩
  -- arguments are refused or related, and not both
  have hcases : (∃ e, Refusal R f args e) ∨ List.Forall₂ R f.inputs args := by
    by_cases hcount : args.length = f.inputs.length
    · rcases related_or_first R f.inputs hcount with
        hall | ⟨before, input, after, first, arg, last, hsplit, hargsSplit, hbefore, harg⟩
      · exact Or.inr hall
      · exact Or.inl ⟨_, .shape hsplit hargsSplit hcount hbefore harg⟩
    · exact Or.inl ⟨_, .count hcount⟩
  refine ⟨fun e => ⟨fun h => ?_, call_of_refusal hinputs hargs hR⟩,
    ⟨fun ⟨results, h⟩ => ?_, fun h => call_of_match (hmatch h)⟩⟩
  · rcases hcases with ⟨e', he'⟩ | hall
    · have hcall : f.call meaning args = .error e' := call_of_refusal hinputs hargs hR he'
      obtain rfl := Except.error.inj (h.symm.trans hcall)
      exact he'
    · obtain ⟨results, hcall⟩ : ∃ results, f.call meaning args = .ok results :=
        call_of_match (hmatch hall)
      exact nomatch h.symm.trans hcall
  · rcases hcases with ⟨e, he⟩ | hall
    · exact nomatch h.symm.trans (call_of_refusal hinputs hargs hR he)
    · exact hall

end

/-- Matching arguments still match in the shapes of the inputs. -/
theorem match_reshaped (h : Match inputs args) :
    Match inputs (List.zipWith reshaped inputs args) := by
  induction h with
  | nil => exact .nil
  | cons hone _ ih => exact .cons hone ih

theorem bindings_reshaped (inputs : List (ExprMatrix α)) (args : List (Grid β)) :
    bindings inputs (List.zipWith reshaped inputs args) = bindings inputs args := by
  rw [bindings, bindings]
  refine congrArg Std.HashMap.ofList ?_
  induction inputs generalizing args with
  | nil => rfl
  | cons input inputs ih =>
      cases args with
      | nil => rfl
      | cons arg args =>
          rw [List.zipWith_cons_cons, List.zip_cons_cons, List.flatMap_cons, ih, List.zip_cons_cons,
            List.flatMap_cons]
          rfl

/-- Of a matching argument only the values count, one after the other. -/
theorem call_reshaped {f : SymbolicFunction α} (h : Match f.inputs args) :
    f.call meaning (List.zipWith reshaped f.inputs args) = f.call meaning args := by
  have hmatch := match_reshaped h
  rw [call, call, if_neg (not_not.mpr h.length_eq.symm),
    if_neg (not_not.mpr hmatch.length_eq.symm), checkArguments_of_match h,
    checkArguments_of_match hmatch, bindings_reshaped]

/-- **A call refuses the first argument that has not as many values as its input has elements**, and
accepts what it does not refuse. It reads the values of an argument column by column into the shape
of the input. If no argument has the right number of values in a shape that is not that of its
input, then arguments are refused and accepted by their shape. -/
theorem call_iff_refusal (meaning : Interpretation α β) (f : SymbolicFunction α)
    (args : List (Grid β)) (hinputs : ∀ input ∈ f.inputs, input.grid.Full)
    (hargs : ∀ arg ∈ args, arg.Full) :
    ((∀ e, f.call meaning args = .error e ↔ Refusal SameCount f args e) ∧
      ((∃ results, f.call meaning args = .ok results) ↔ List.Forall₂ SameCount f.inputs args)) ∧
    (List.Forall₂ SameCount f.inputs args →
      List.Forall₂ SameShape f.inputs (List.zipWith reshaped f.inputs args) ∧
        f.call meaning args = f.call meaning (List.zipWith reshaped f.inputs args)) ∧
    ((∀ input arg, (input, arg) ∈ f.inputs.zip args → SameCount input arg → SameShape input arg) →
      (∀ e, f.call meaning args = .error e ↔ Refusal SameShape f args e) ∧
      ((∃ results, f.call meaning args = .ok results) ↔
        List.Forall₂ SameShape f.inputs args)) := by
  refine ⟨call_iff_of_sameCount hinputs hargs fun _ _ _ => Iff.rfl, fun h => ⟨?_, ?_⟩,
    fun hshapes => call_iff_of_sameCount hinputs hargs fun input arg hmem => ⟨fun h => ?_, ?_⟩⟩
  · have hlength : f.inputs.length ≤ args.length := le_of_eq h.length_eq
    rw [List.forall₂_iff_get]
    refine ⟨by simpa using hlength, fun i hi hi' => ?_⟩
    simp [SameShape, reshaped, Grid.shape]
  · exact (call_reshaped h).symm
  · exact h.sameCount (hinputs input (List.of_mem_zip hmem).1) (hargs arg (List.of_mem_zip hmem).2)
  · exact hshapes input arg hmem

/-! A matrix of two rows and three columns, and a numeric one of three rows and two columns. -/

/-- Six symbols in two rows. -/
def wide : ExprMatrix Float :=
  ⟨.sx, ⟨2, 3, Expr.symbolsFrom 0 ["s_0", "s_1", "s_2", "s_3", "s_4", "s_5"]⟩⟩

/-- The function that gives back the six symbols. -/
def wideIdentity : SymbolicFunction Float := ⟨"f", .sx, [wide], [wide]⟩

/-- Six numbers in three rows. -/
def tall : Grid Float := ⟨3, 2, [1, 2, 3, 4, 5, 6]⟩

/-- Six numbers for six symbols are accepted in another shape, and five are refused. -/
theorem call_iff_refusal_wide :
    (∃ results, wideIdentity.call Interpretation.double [tall] = .ok results) ∧
    wideIdentity.call Interpretation.double [⟨5, 1, [1, 2, 3, 4, 5]⟩] =
      .error (.argumentShape "f" 0 (2, 3) (5, 1)) := by
  have hinputs : ∀ input ∈ wideIdentity.inputs, input.grid.Full :=
    List.forall_mem_singleton.mpr rfl
  refine ⟨?_, ?_⟩
  · obtain ⟨⟨_, haccepted⟩, _⟩ := call_iff_refusal Interpretation.double wideIdentity [tall] hinputs
      (List.forall_mem_singleton.mpr rfl)
    exact haccepted.mpr (.cons rfl .nil)
  · have hsplit : wideIdentity.inputs = [] ++ wide :: [] := rfl
    have hfive : ¬SameCount wide (⟨5, 1, [1, 2, 3, 4, 5]⟩ : Grid Float) :=
      fun h => (by decide : ¬6 = 5) h
    obtain ⟨⟨hrefused, _⟩, _⟩ := call_iff_refusal Interpretation.double wideIdentity
      [⟨5, 1, [1, 2, 3, 4, 5]⟩] hinputs (List.forall_mem_singleton.mpr rfl)
    exact (hrefused _).mpr (.shape hsplit (List.nil_append _).symm rfl .nil hfive)

/-- **An argument of another shape is accepted**, and its values are read by columns: the number in
the last row and the first column of `tall` is taken for the symbol in the first row and the second
column. -/
theorem call_of_other_shape :
    make "f" [wide] [wide] = .ok wideIdentity ∧ ¬SameShape wide tall ∧
    (∃ results, wideIdentity.call Interpretation.double [tall] = .ok results) ∧
    wideIdentity.call Interpretation.double [tall] =
      wideIdentity.call Interpretation.double [⟨2, 3, [1, 2, 3, 4, 5, 6]⟩] := by
  have hmatch : Match wideIdentity.inputs [tall] := .cons rfl .nil
  refine ⟨by cbv, fun h => (by decide : ¬(2, 3) = (3, 2)) h, call_of_match hmatch, ?_⟩
  exact (call_reshaped hmatch).symm

end SymbolicFunction

end ExplicitOde
