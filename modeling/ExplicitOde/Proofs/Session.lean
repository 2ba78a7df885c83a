import ExplicitOde.Proofs.Function.Make
import ExplicitOde.Proofs.Matrix.Closure
import ExplicitOde.Proofs.Matrix.Lockstep
import ExplicitOde.Proofs.Model.Success

/-!
# The two representations never mix

A matrix has a kind, but its elements have none: a symbol does not say for which representation it
was made. A `Session` is a run of operations on matrices, started from nothing, that keeps a record
of that.

* **Every symbol below a matrix was made for the representation of the matrix**, and below a numeric
  matrix there are none. Functions belong to one representation in the same way.
* **No symbol was made for both representations**, since no identity is handed out twice.
* **Operations on matrices of both representations are refused**, in whatever order they stand.
-/

namespace ExplicitOde

open ExplicitOde.Expr ExprMatrix

variable {α : Type}

/-! ## Operations -/

/-- An operation that makes a matrix. -/
inductive Request (α : Type) where
  | symbols (representation : Representation) (name : String) (rows cols : Nat)
  | zeros (representation : Representation) (rows cols : Nat)
  | identity (representation : Representation) (n : Nat)
  | numeric (values : Grid α)
  | add (a b : ExprMatrix α)
  | mul (a b : ExprMatrix α)
  | transpose (m : ExprMatrix α)
  | beside (parts : List (ExprMatrix α))
  | above (parts : List (ExprMatrix α))
  | element (m : ExprMatrix α) (row col : Nat)
  | jacobian (expr arg : ExprMatrix α)
  | forwardDerivative (expr arg seed : ExprMatrix α)
  | reverseDerivative (expr arg seed : ExprMatrix α)

namespace Request

/-- The matrices that an operation is done with. -/
def operands : Request α → List (ExprMatrix α)
  | symbols _ _ _ _ => []
  | zeros _ _ _ => []
  | identity _ _ => []
  | numeric _ => []
  | add a b => [a, b]
  | mul a b => [a, b]
  | transpose m => [m]
  | beside parts => parts
  | above parts => parts
  | element m _ _ => [m]
  | jacobian expr arg => [expr, arg]
  | forwardDerivative expr arg seed => [expr, arg, seed]
  | reverseDerivative expr arg seed => [expr, arg, seed]

/-- The symbols that are made with a matrix, each with the representation it is made for. -/
def newSymbols (m : ExprMatrix α) : Request α → List (Nat × Representation)
  | symbols representation _ _ _ => m.elements.map fun e => (e.id, representation)
  | _ => []

variable [Scalar α]

/-- The operation is done. -/
def run : Request α → Attempt AlgebraError (ExprMatrix α)
  | symbols representation name rows cols =>
    liftM (ExprMatrix.symbols (.ofRepresentation representation) name rows cols : Build _)
  | zeros representation rows cols =>
    liftM (ExprMatrix.zeros (.ofRepresentation representation) rows cols : Build _)
  | identity representation n =>
    liftM (ExprMatrix.identity (.ofRepresentation representation) n : Build _)
  | numeric values => liftM (ExprMatrix.numeric values : Build _)
  | add a b => ExprMatrix.add a b
  | mul a b => ExprMatrix.mul a b
  | transpose m => pure m.transpose
  | beside parts => liftM (ExprMatrix.beside parts)
  | above parts => liftM (ExprMatrix.above parts)
  | element m row col => liftM (m.element row col)
  | jacobian expr arg => ExprMatrix.jacobian expr arg
  | forwardDerivative expr arg seed => ExprMatrix.forwardDerivative expr arg seed
  | reverseDerivative expr arg seed => ExprMatrix.reverseDerivative expr arg seed

/-- No operation takes back an identity: it is in step with the same operation on matrices with
other identities. -/
theorem next_le (r : Request α) (n : Nat) : n ≤ (r.run n).2 := by
  have hρ := biUnique_moved (Nat.le_refl n) (Nat.le_succ n)
  have htotal : ∀ i, ∃ j, Moved n n (n + 1) i j := by
    intro i
    by_cases hi : i < n
    · exact ⟨i, Or.inl ⟨hi, rfl⟩⟩
    · exact ⟨i + 1, Or.inr ⟨by omega, by omega⟩⟩
  obtain ⟨other, hother⟩ := exists_other (α := α) htotal
  have hparts : ∀ parts : List (ExprMatrix α),
      List.Forall₂ (ExprMatrix.Alike (Moved n n (n + 1))) parts (parts.map other) := fun parts =>
    List.forall₂_map_right_iff.mpr (List.forall₂_same.mpr fun m _ => hother m)
  suffices h : ∃ x' : Attempt AlgebraError (ExprMatrix α),
      Together (Moved n n (n + 1)) r.run x' (ExprMatrix.Alike (Moved n n (n + 1))) from
    h.elim fun _ htogether => htogether.next_le
  cases r with
  | symbols _ name rows cols => exact ⟨_, .lift (inStep_symbols _ name name rows cols)⟩
  | zeros _ rows cols => exact ⟨_, .lift (inStep_zeros _ rows cols)⟩
  | identity _ k => exact ⟨_, .lift (inStep_identity _ k)⟩
  | numeric values => exact ⟨_, .lift (inStep_numeric values)⟩
  | add a b => exact ⟨_, together_add hρ (hother a) (hother b)⟩
  | mul a b => exact ⟨_, together_mul hρ (hother a) (hother b)⟩
  | transpose m => exact ⟨_, .pure (hother m).transpose⟩
  | beside parts => exact ⟨_, .check (beside_alike (hparts parts))⟩
  | above parts => exact ⟨_, .check (above_alike (hparts parts))⟩
  | element m row col => exact ⟨_, .check (element_alike (hother m) row col)⟩
  | jacobian expr arg => exact ⟨_, together_jacobian hρ (hother expr) (hother arg)⟩
  | forwardDerivative expr arg seed =>
      exact ⟨_, together_forwardDerivative hρ (hother expr) (hother arg) (hother seed)⟩
  | reverseDerivative expr arg seed =>
      exact ⟨_, together_reverseDerivative hρ (hother expr) (hother arg) (hother seed)⟩

/-- Apart from new symbols, a result keeps to the symbols that operands of its kind may have. -/
theorem run_keeps {P : Kind → Nat → Prop} (hdm : ∀ k i, P .dm i → P k i) {r : Request α}
    (hnew : ∀ representation name rows cols, r ≠ .symbols representation name rows cols)
    (h : ∀ m ∈ r.operands, m.Keeps P) : OnSuccess r.run (Keeps P) := by
  cases r with
  | symbols representation name rows cols => exact absurd rfl (hnew representation name rows cols)
  | zeros _ rows cols => exact .lift (zeros_keeps _ rows cols)
  | identity _ n => exact .lift (identity_keeps _ n)
  | numeric values => exact .lift (numeric_keeps values)
  | add a b => exact add_keeps hdm (h a (by simp [operands])) (h b (by simp [operands]))
  | mul a b => exact mul_keeps hdm (h a (by simp [operands])) (h b (by simp [operands]))
  | transpose m => exact .pure (transpose_keeps (h m (by simp [operands])))
  | beside parts => exact .check fun m hm => beside_keeps hdm h hm
  | above parts => exact .check fun m hm => above_keeps hdm h hm
  | element m row col => exact .check fun a ha => element_keeps (h m (by simp [operands])) ha
  | jacobian expr arg => exact jacobian_keeps hdm (h expr (by simp [operands]))
  | forwardDerivative expr arg seed =>
      exact forwardDerivative_keeps hdm (h expr (by simp [operands])) (h seed (by simp [operands]))
  | reverseDerivative expr arg seed =>
      exact reverseDerivative_keeps hdm (h expr (by simp [operands])) (h seed (by simp [operands]))

/-- Matrices of both representations are refused, in whatever order they stand. -/
theorem run_clash {r : Request α} (hsx : .sx ∈ r.operands.map ExprMatrix.kind)
    (hmx : .mx ∈ r.operands.map ExprMatrix.kind) (n : Nat) :
    ∃ e, (r.run n).1 = .error e ∧ Clash e := by
  -- all operations on several matrices look at the kinds first
  have hcheck : ∀ {kinds : List Kind} {operation : Operation}
      {f : Kind → Attempt AlgebraError (ExprMatrix α)} {n : Nat}, .sx ∈ kinds → .mx ∈ kinds →
      ∃ e, ((liftM (combineKinds operation kinds) >>= f : Attempt _ _) n).1 = .error e ∧
        Clash e := by
    intro kinds operation f n hsx hmx
    obtain ⟨e, he, hclash⟩ : ∃ e, combineKinds operation kinds = .error e ∧ Clash e :=
      combineKinds_clash hsx hmx
    exact ⟨e, by rw [he]; rfl, hclash⟩
  cases r with
  | symbols | zeros | identity | numeric => exact absurd hsx List.not_mem_nil
  | add a b =>
      rw [run, ExprMatrix.add, elementwise, combinePair_eq_combineKinds]
      exact hcheck hsx hmx
  | mul a b =>
      rw [run, ExprMatrix.mul, combinePair_eq_combineKinds]
      exact hcheck hsx hmx
  | transpose m | element m =>
      rw [operands, List.map_singleton, List.mem_singleton] at hsx hmx
      exact absurd (hsx.trans hmx.symm) (by decide)
  | beside parts =>
      obtain ⟨e, he, hclash⟩ : ∃ e, combineKinds .beside (parts.map kind) = .error e ∧ Clash e :=
        combineKinds_clash hsx hmx
      exact ⟨e, by rw [run, ExprMatrix.beside, he]; rfl, hclash⟩
  | above parts =>
      obtain ⟨e, he, hclash⟩ : ∃ e, combineKinds .above (parts.map kind) = .error e ∧ Clash e :=
        combineKinds_clash hsx hmx
      exact ⟨e, by rw [run, ExprMatrix.above, he]; rfl, hclash⟩
  | jacobian expr arg =>
      rw [run, ExprMatrix.jacobian, lift_bind_run]
      exact hcheck (List.mem_append_left [_] hsx) (List.mem_append_left [_] hmx)
  | forwardDerivative expr arg seed => exact hcheck hsx hmx
  | reverseDerivative expr arg seed => exact hcheck hsx hmx

end Request

/-! ## Sessions -/

/-- The matrices and functions that were made. -/
structure Session (α : Type) where
  /-- The least identity not handed out. -/
  next : Nat
  matrices : List (ExprMatrix α)
  functions : List (SymbolicFunction α)
  /-- The symbols that were made, each with the representation it was made for. -/
  made : List (Nat × Representation)

namespace Session

/-- The symbols that were made for a kind; none were made for numbers. -/
def MadeFor (s : Session α) (kind : Kind) (id : Nat) : Prop :=
  ∃ representation : Representation, kind = .ofRepresentation representation ∧
    (id, representation) ∈ s.made

variable [Scalar α]

/-- Matrices and functions are made of matrices that were made before. A function that is refused
leaves everything as it is; an operation that is refused may have taken identities. -/
inductive Step : Session α → Session α → Prop where
  | matrix {s : Session α} (r : Request α) {m : ExprMatrix α} {next : Nat}
      (hoperands : ∀ a ∈ r.operands, a ∈ s.matrices) (hrun : r.run s.next = (.ok m, next)) :
      Step s ⟨next, m :: s.matrices, s.functions, r.newSymbols m ++ s.made⟩
  | refused {s : Session α} (r : Request α) {e : AlgebraError} {next : Nat}
      (hoperands : ∀ a ∈ r.operands, a ∈ s.matrices) (hrun : r.run s.next = (.error e, next)) :
      Step s { s with next := next }
  | function {s : Session α} (name : String) (inputs outputs : List (ExprMatrix α))
      {f : SymbolicFunction α} (hoperands : ∀ a ∈ inputs ++ outputs, a ∈ s.matrices)
      (hmake : SymbolicFunction.make name inputs outputs = .ok f) :
      Step s { s with functions := f :: s.functions }

/-- What can be made from nothing. -/
inductive Reachable : Session α → Prop where
  | start (next : Nat) : Reachable ⟨next, [], [], []⟩
  | step {s s' : Session α} (h : Reachable s) (hstep : Step s s') : Reachable s'

/-- The representations are apart. -/
structure Apart (s : Session α) : Prop where
  matrices : ∀ m ∈ s.matrices, m.Keeps s.MadeFor
  functions : ∀ f ∈ s.functions, ∀ m ∈ f.inputs ++ f.outputs,
    (m.kind = f.kind ∨ m.kind = .dm) ∧ m.Keeps s.MadeFor
  handedOut : ∀ p ∈ s.made, p.1 < s.next
  /-- A symbol is made once. -/
  once : ∀ p ∈ s.made, ∀ q ∈ s.made, p.1 = q.1 → p = q

omit [Scalar α] in
theorem madeFor_dm (s : Session α) (kind : Kind) (i : Nat) (h : s.MadeFor .dm i) :
    s.MadeFor kind i := by
  obtain ⟨representation, hkind, _⟩ := h
  cases representation <;> exact Kind.noConfusion hkind

omit [Scalar α] in
theorem apart_start (next : Nat) : Apart (⟨next, [], [], []⟩ : Session α) where
  matrices := fun _ hm => absurd hm List.not_mem_nil
  functions := fun _ hf => absurd hf List.not_mem_nil
  handedOut := fun _ hp => absurd hp List.not_mem_nil
  once := fun _ hp => absurd hp List.not_mem_nil

omit [Scalar α] in
theorem MadeFor.imp {s s' : Session α} (h : s.made ⊆ s'.made) (kind : Kind) (i : Nat)
    (hmade : s.MadeFor kind i) : s'.MadeFor kind i := by
  obtain ⟨representation, hkind, hmem⟩ := hmade
  exact ⟨representation, hkind, h hmem⟩

omit [Scalar α] in
/-- New symbols have identities of their own, so they may be made for either representation. -/
theorem Apart.symbols {s : Session α} (h : s.Apart) (representation : Representation)
    (rows cols : Nat) (names : List String) :
    let es : List (Expr α) := symbolsFrom s.next names
    Apart ⟨s.next + names.length,
      ⟨.ofRepresentation representation, ⟨rows, cols, es⟩⟩ :: s.matrices, s.functions,
      es.map (fun e => (e.id, representation)) ++ s.made⟩ := by
  intro es
  have hids : es.map Expr.id = List.range' s.next names.length := id_symbolsFrom s.next names
  have hnew : ∀ p ∈ es.map fun e => (e.id, representation),
      s.next ≤ p.1 ∧ p.1 < s.next + names.length ∧ p.2 = representation := by
    intro p hp
    obtain ⟨e, he, rfl⟩ := List.mem_map.mp hp
    have hid : e.id ∈ List.range' s.next names.length := hids ▸ List.mem_map_of_mem he
    have hrange := List.mem_range'_1.mp hid
    exact ⟨hrange.1, hrange.2, rfl⟩
  have hsub : s.made ⊆ es.map (fun e => (e.id, representation)) ++ s.made :=
    List.subset_append_right _ _
  refine ⟨List.forall_mem_cons.mpr ⟨?_, fun m hm => (h.matrices m hm).imp (MadeFor.imp hsub)⟩,
    fun f hf m hm => ⟨(h.functions f hf m hm).1, (h.functions f hf m hm).2.imp (MadeFor.imp hsub)⟩,
    ?_, ?_⟩
  · refine over_of_symbols (isSymbol_symbolsFrom s.next names) fun i hi => ?_
    obtain ⟨e, he, rfl⟩ := List.mem_map.mp hi
    exact ⟨representation, rfl, List.mem_append_left _ (List.mem_map_of_mem he)⟩
  · intro p hp
    rcases List.mem_append.mp hp with hp | hp
    · exact (hnew p hp).2.1
    · exact Nat.lt_of_lt_of_le (h.handedOut p hp) (Nat.le_add_right _ _)
  · intro p hp q hq hid
    -- an identity handed out before is below all new ones
    rcases List.mem_append.mp hp with hp | hp <;> rcases List.mem_append.mp hq with hq | hq
    · exact Prod.ext hid ((hnew p hp).2.2.trans (hnew q hq).2.2.symm)
    · exact absurd (hid ▸ (hnew p hp).1) (Nat.not_le.mpr (h.handedOut q hq))
    · exact absurd (hid ▸ (hnew q hq).1) (Nat.not_le.mpr (h.handedOut p hp))
    · exact h.once p hp q hq hid

omit [Scalar α] in
/-- A matrix that is made without symbols has those of its operands. -/
theorem Apart.keep {s : Session α} (h : s.Apart) {m : ExprMatrix α} (hm : m.Keeps s.MadeFor)
    {next : Nat} (hnext : s.next ≤ next) :
    Apart ⟨next, m :: s.matrices, s.functions, s.made⟩ where
  matrices := List.forall_mem_cons.mpr ⟨hm, h.matrices⟩
  functions := h.functions
  handedOut := fun p hp => Nat.lt_of_lt_of_le (h.handedOut p hp) hnext
  once := h.once

/-- **The representations stay apart.** -/
theorem Apart.step {s s' : Session α} (h : s.Apart) (hstep : Step s s') : s'.Apart := by
  cases hstep with
  | @matrix r m next hoperands hrun =>
      have hnext := r.next_le s.next
      rw [hrun] at hnext
      have hkeeps : (∀ representation name rows cols,
          r ≠ .symbols representation name rows cols) → m.Keeps s.MadeFor := fun hnew =>
        Request.run_keeps s.madeFor_dm hnew (fun a ha => h.matrices a (hoperands a ha)) s.next m
          (by rw [hrun])
      -- only new symbols have identities that were not handed out before
      cases r with
      | symbols representation name rows cols =>
          obtain ⟨names, hcount, hsymbols⟩ :=
            symbols_run (α := α) (.ofRepresentation representation) name rows cols s.next
          rw [Request.run, lift_run, hsymbols] at hrun
          obtain ⟨hm, rfl⟩ := Prod.mk.inj hrun
          obtain rfl := Except.ok.inj hm
          rw [← hcount]
          exact h.symbols representation rows cols names
      | _ => exact h.keep (hkeeps fun _ _ _ _ heq => nomatch heq) hnext
  | refused r hoperands hrun =>
      have hnext := r.next_le s.next
      rw [hrun] at hnext
      exact ⟨h.matrices, h.functions, fun p hp => Nat.lt_of_lt_of_le (h.handedOut p hp) hnext,
        h.once⟩
  | @function name inputs outputs f hoperands hmake =>
      obtain ⟨kind, _, hkind, _, _, rfl⟩ := SymbolicFunction.make_cases hmake
      refine ⟨h.matrices, List.forall_mem_cons.mpr ⟨fun m hm => ?_, h.functions⟩, h.handedOut,
        h.once⟩
      exact ⟨combineKinds_eq_ok hkind _ (List.mem_map_of_mem hm), h.matrices m (hoperands m hm)⟩

theorem Reachable.apart {s : Session α} (h : Reachable s) : s.Apart := by
  induction h with
  | start next => exact apart_start next
  | step _ hstep ih => exact ih.step hstep

omit [Scalar α] in
/-- Inputs and outputs of both representations are refused. -/
theorem make_clash {name : String} {inputs outputs : List (ExprMatrix α)}
    (hsx : .sx ∈ (inputs ++ outputs).map ExprMatrix.kind)
    (hmx : .mx ∈ (inputs ++ outputs).map ExprMatrix.kind) :
    ∃ e, SymbolicFunction.make name inputs outputs = .error e ∧ Clash e := by
  obtain ⟨e, he, hclash⟩ :
    ∃ e, combineKinds .function ((inputs ++ outputs).map kind) = .error e ∧ Clash e :=
      combineKinds_clash hsx hmx
  exact ⟨e, by rw [SymbolicFunction.make, he]; rfl, hclash⟩

/-- **Whatever is made from nothing, the two representations never mix.** -/
theorem Reachable.never_mixed {s : Session α} (h : Reachable s) :
    (∀ m ∈ s.matrices, ∀ e ∈ m.elements, ∀ x, e.Reaches x → x.isSymbol = true →
      s.MadeFor m.kind x.id) ∧
    (∀ m ∈ s.matrices, m.kind = .dm →
      ∀ e ∈ m.elements, ∀ x, e.Reaches x → x.isSymbol = false) ∧
    (∀ f ∈ s.functions, ∀ m ∈ f.inputs ++ f.outputs, (m.kind = f.kind ∨ m.kind = .dm) ∧
      ∀ e ∈ m.elements, ∀ x, e.Reaches x → x.isSymbol = true → s.MadeFor f.kind x.id) ∧
    (∀ id r r', (id, r) ∈ s.made → (id, r') ∈ s.made → r = r') ∧
    (∀ r : Request α, .sx ∈ r.operands.map kind → .mx ∈ r.operands.map kind →
      ∀ n, ∃ e, (r.run n).1 = .error e ∧ Clash e) ∧
    (∀ (name : String) (inputs outputs : List (ExprMatrix α)),
      .sx ∈ (inputs ++ outputs).map kind → .mx ∈ (inputs ++ outputs).map kind →
        ∃ e, SymbolicFunction.make name inputs outputs = .error e ∧ Clash e) := by
  have hapart := h.apart
  have hmade : ∀ m ∈ s.matrices, ∀ e ∈ m.elements, ∀ x, e.Reaches x → x.isSymbol = true →
      s.MadeFor m.kind x.id := fun m hm e he => over_iff.mp (hapart.matrices m hm e he)
  refine ⟨hmade, ?_, ?_, ?_, fun r => r.run_clash, fun _ _ _ => make_clash⟩
  · intro m hm hkind e he x hreach
    by_contra hsymbol
    obtain ⟨representation, hdm, _⟩ :=
      hmade m hm e he x hreach (Bool.eq_true_of_not_eq_false hsymbol)
    rw [hkind] at hdm
    cases representation <;> exact Kind.noConfusion hdm
  · intro f hf m hm
    obtain ⟨hkind, hkeeps⟩ := hapart.functions f hf m hm
    exact ⟨hkind, fun e he => over_iff.mp (hkeeps.over s.madeFor_dm hkind e he)⟩
  · intro id r r' hr hr'
    exact (Prod.mk.inj (hapart.once (id, r) hr (id, r') hr' rfl)).2

/-! A symbol for each representation, and twice the second one as a function of it. -/

def sampleX : ExprMatrix ℚ := ⟨.sx, ⟨1, 1, [symbol 0 "x"]⟩⟩

def sampleY : ExprMatrix ℚ := ⟨.mx, ⟨1, 1, [symbol 1 "y"]⟩⟩

def sampleSum : ExprMatrix ℚ := ⟨.mx, ⟨1, 1, [binary 2 .add (symbol 1 "y") (symbol 1 "y")]⟩⟩

/-- The session in which they are made. -/
def sample : Session ℚ :=
  ⟨3, [sampleSum, sampleY, sampleX], [⟨"double", .mx, [sampleY], [sampleSum]⟩],
    [(1, .mx), (0, .sx)]⟩

theorem reachable_sample : Reachable sample := by
  have hx : Reachable (⟨1, [sampleX], [], [(0, .sx)]⟩ : Session ℚ) :=
    .step (.start 0) (.matrix (.symbols .sx "x" 1 1) (fun _ ha => absurd ha List.not_mem_nil) rfl)
  have hy : Reachable (⟨2, [sampleY, sampleX], [], [(1, .mx), (0, .sx)]⟩ : Session ℚ) :=
    .step hx (.matrix (.symbols .mx "y" 1 1) (fun _ ha => absurd ha List.not_mem_nil) rfl)
  have hsum : Reachable
      (⟨3, [sampleSum, sampleY, sampleX], [], [(1, .mx), (0, .sx)]⟩ : Session ℚ) :=
    .step hy (.matrix (.add sampleY sampleY) (by simp [Request.operands]) rfl)
  have haccepted : SymbolicFunction.Accepted [sampleY] [sampleSum] :=
    { symbolic := by decide
      distinct := by decide
      closed := List.forall_mem_singleton.mpr <| over_iff.mp
        ⟨List.mem_cons_self, List.mem_cons_self⟩ }
  exact .step hsum (.function "double" [sampleY] [sampleSum] (by simp)
    (SymbolicFunction.make_of_accepted rfl haccepted))

/-- Twice `y` has the symbol that was made for its representation, and is not multiplied with
`x`. -/
theorem never_mixed_sample :
    Reachable sample ∧ sample.MadeFor .mx (symbol 1 "y" : Expr ℚ).id ∧
      ∃ e, ((Request.mul sampleSum sampleX).run 3).1 = .error e ∧ Clash e := by
  obtain ⟨hmatrices, _, _, _, hclash, _⟩ := reachable_sample.never_mixed
  refine ⟨reachable_sample, ?_, hclash (.mul sampleSum sampleX) (by decide) (by decide) 3⟩
  exact hmatrices sampleSum (by simp [sample]) _ List.mem_cons_self _
    (.through (by simp [Expr.operands]) (.self _)) rfl

end Session

end ExplicitOde
