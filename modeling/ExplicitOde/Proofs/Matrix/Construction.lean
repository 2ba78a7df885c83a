import ExplicitOde.Proofs.Matrix.Storage
import ExplicitOde.Scalar.Double

/-!
# Every matrix is stored whole

A `Construction` is an operation that makes a matrix, of any kind and with any elements, and `Made`
is what constructions make of each other, one after the other.

* **Every matrix that is made has one element for each of its positions**: every construction keeps
  this of its operands (`Construction.run_full`), so it holds whatever was made before
  (`Made.full`). An element is missing only outside the shape.
* **No construction looks outside the storage of its operands**: done place by place it comes to the
  same (`Construction.byPlace_eq`).
* **The elements of a derivative are as many as its shape asks for**, whatever it is made of
  (`derivative_ne_miscount`).

`made_storedWhole` puts them together.
-/

namespace ExplicitOde

open ExplicitOde.Expr

/-- The number of the elements does not fit the shape. -/
def AlgebraError.IsMiscount (e : AlgebraError) : Prop :=
  ∃ left right, e = .shapes .fromElements left right

/-! ## Constructions -/

/-- An operation that makes a matrix. -/
inductive Construction (α : Type) where
  /-- Given elements, of which there may be too few or too many. -/
  | ofElements (kind : Kind) (rows cols : Nat) (elements : List (Expr α))
  | column (kind : Kind) (elements : List (Expr α))
  | symbols (kind : Kind) (name : String) (rows cols : Nat)
  | zeros (kind : Kind) (rows cols : Nat)
  | identity (kind : Kind) (n : Nat)
  | numeric (values : Grid α) (full : values.Full)
  | withKind (m : ExprMatrix α) (kind : Kind)
  | add (a b : ExprMatrix α)
  | sub (a b : ExprMatrix α)
  | mul (a b : ExprMatrix α)
  | transpose (m : ExprMatrix α)
  | beside (parts : List (ExprMatrix α))
  | above (parts : List (ExprMatrix α))
  | element (m : ExprMatrix α) (row col : Nat)
  | lowerTriangle (m : ExprMatrix α)
  | forwardDerivative (expr arg seed : ExprMatrix α)
  | reverseDerivative (expr arg seed : ExprMatrix α)
  | jacobian (expr arg : ExprMatrix α)

namespace Construction

variable {α : Type}

/-- The matrices that a construction is done with. -/
def operands : Construction α → List (ExprMatrix α)
  | ofElements _ _ _ _ => []
  | column _ _ => []
  | symbols _ _ _ _ => []
  | zeros _ _ _ => []
  | identity _ _ => []
  | numeric _ _ => []
  | withKind m _ => [m]
  | add a b => [a, b]
  | sub a b => [a, b]
  | mul a b => [a, b]
  | transpose m => [m]
  | beside parts => parts
  | above parts => parts
  | element m _ _ => [m]
  | lowerTriangle m => [m]
  | forwardDerivative expr arg seed => [expr, arg, seed]
  | reverseDerivative expr arg seed => [expr, arg, seed]
  | jacobian expr arg => [expr, arg]

variable [Scalar α]

/-- The construction is done. -/
def run : Construction α → Attempt AlgebraError (ExprMatrix α)
  | ofElements kind rows cols elements => liftM (ExprMatrix.ofElements kind rows cols elements)
  | column kind elements => pure (ExprMatrix.column kind elements)
  | symbols kind name rows cols => liftM (ExprMatrix.symbols kind name rows cols : Build _)
  | zeros kind rows cols => liftM (ExprMatrix.zeros kind rows cols : Build _)
  | identity kind n => liftM (ExprMatrix.identity kind n : Build _)
  | numeric values _ => liftM (ExprMatrix.numeric values : Build _)
  | withKind m kind => pure (m.withKind kind)
  | add a b => ExprMatrix.add a b
  | sub a b => ExprMatrix.sub a b
  | mul a b => ExprMatrix.mul a b
  | transpose m => pure m.transpose
  | beside parts => liftM (ExprMatrix.beside parts)
  | above parts => liftM (ExprMatrix.above parts)
  | element m row col => liftM (m.element row col)
  | lowerTriangle m => liftM m.lowerTriangle
  | forwardDerivative expr arg seed => ExprMatrix.forwardDerivative expr arg seed
  | reverseDerivative expr arg seed => ExprMatrix.reverseDerivative expr arg seed
  | jacobian expr arg => ExprMatrix.jacobian expr arg

/-- The construction is done place by place. Those that go through all elements of their operands,
one after the other, look at no place. -/
def byPlace : Construction α → Attempt Fault (ExprMatrix α)
  | identity kind n => ExprMatrix.identityByPlace kind n
  | mul a b => ExprMatrix.mulByPlace a b
  | transpose m => liftM m.transposeByPlace
  | above parts => liftM (ExprMatrix.aboveByPlace parts)
  | element m row col => liftM (m.elementByPlace row col)
  | lowerTriangle m => liftM m.lowerTriangleByPlace
  | forwardDerivative expr arg seed =>
    ExprMatrix.derivativeByPlace (ExprMatrix.forwardMode expr arg) expr arg seed
  | reverseDerivative expr arg seed =>
    ExprMatrix.derivativeByPlace (ExprMatrix.reverseMode expr) expr arg seed
  | jacobian expr arg => ExprMatrix.jacobianByPlace expr arg
  | c => c.run.adapt .refused

end Construction

/-- What can be made by constructions, one after the other. Each may be done at any time. -/
inductive ExprMatrix.Made {α : Type} [Scalar α] : ExprMatrix α → Prop where
  | construct (c : Construction α) {m : ExprMatrix α} (n : Nat)
      (hoperands : ∀ a ∈ c.operands, Made a) (hrun : (c.run n).1 = .ok m) : Made m

namespace ExprMatrix

variable {α : Type} {a b m : ExprMatrix α}

/-! ## What every operation keeps -/

theorem full_lowerTriangle (h : m.lowerTriangle = .ok a) : a.grid.Full := by
  obtain ⟨es, hes, habove⟩ := bind_eq_ok_iff.mp h
  refine full_of_above (fun e he => ?_) habove
  obtain ⟨p, _, hp⟩ := Grid.exists_of_mem_forall₂ (mapM_eq_ok_iff.mp hes) he
  exact full_of_element hp

theorem full_symbols (kind : Kind) (name : String) (rows cols : Nat) :
    Always (symbols kind name rows cols : Build (ExprMatrix α)) fun m => m.grid.Full := by
  intro n
  exact (length_mapM_build _ _ n).trans List.length_range

theorem full_numeric {values : Grid α} (h : values.Full) :
    Always (numeric values) fun m => m.grid.Full :=
  fun n => (length_mapM_build _ _ n).trans h

variable [Scalar α]

theorem full_zeros (kind : Kind) (rows cols : Nat) :
    Always (zeros kind rows cols : Build (ExprMatrix α)) fun m => m.grid.Full :=
  fun _ => List.length_replicate

theorem full_elementwise {operation : Operation} {op : BinaryOp} (ha : a.grid.Full)
    (hb : b.grid.Full) : OnSuccess (elementwise operation op a b) fun m => m.grid.Full := by
  rw [elementwise]
  refine .check_bind fun kind _ => ?_
  by_cases hshape : a.shape = b.shape
  · have hlength : (a.elements.zip b.elements).length = a.rows * a.cols := by
      obtain ⟨hrows, hcols⟩ := Prod.mk.inj hshape
      rw [List.length_zip, elements, elements, ha, hb, ← hrows, ← hcols, Nat.min_self]
      rfl
    rw [if_pos hshape, mapM_lift]
    exact (OnSuccess.lift fun n => (length_mapM_build _ _ n).trans hlength).bind
      fun cells hcells => .pure hcells
  · rw [if_neg hshape]
    exact .fail

theorem full_mul (a b : ExprMatrix α) : OnSuccess (mul a b) fun m => m.grid.Full := by
  rw [mul]
  refine .check_bind fun kind _ => ?_
  by_cases hfit : a.cols = b.rows
  · have hlength : Always (productCells a.grid b.grid) fun cells =>
        cells.length = a.rows * b.cols := fun n =>
      (length_mapM_build _ _ n).trans (Grid.length_positions _ _)
    rw [if_pos hfit]
    exact (OnSuccess.lift hlength).bind fun cells hcells => .pure hcells
  · rw [if_neg hfit]
    exact .fail

omit [Scalar α] in
theorem full_derivative (mode : Mode α) (expr arg seed : ExprMatrix α) :
    OnSuccess (derivative mode expr arg seed) fun m => m.grid.Full := by
  rw [derivative]
  refine .check_bind fun kind _ => .refuse fun _ => .check_bind fun symbols _ => ?_
  refine (OnSuccess.lift (length_columns mode seed symbols)).bind fun columns hlength => ?_
  refine .check fun m hm => ?_
  obtain ⟨_, rfl⟩ := ofElements_eq_ok_iff.mp hm
  exact hlength

theorem full_jacobian (expr arg : ExprMatrix α) :
    OnSuccess (jacobian expr arg) fun m => m.grid.Full := by
  rw [jacobian]
  refine (OnSuccess.lift (full_identity .dm arg.numel)).bind fun unit _ => ?_
  rw [forwardDerivative_eq]
  exact full_derivative _ expr arg unit

end ExprMatrix

namespace Construction

variable {α : Type} [Scalar α]

/-- **Every construction makes a whole matrix of whole matrices.** -/
theorem run_full (c : Construction α) (h : ∀ a ∈ c.operands, a.grid.Full) :
    OnSuccess c.run fun m => m.grid.Full := by
  cases c with
  | ofElements kind rows cols elements =>
      refine .check fun m hm => ?_
      obtain ⟨hlength, rfl⟩ := ExprMatrix.ofElements_eq_ok_iff.mp hm
      exact hlength
  | column kind elements => exact .pure (Nat.mul_one _).symm
  | symbols kind name rows cols => exact .lift (ExprMatrix.full_symbols kind name rows cols)
  | zeros kind rows cols => exact .lift (ExprMatrix.full_zeros kind rows cols)
  | identity kind n => exact .lift (ExprMatrix.full_identity kind n)
  | numeric values full => exact .lift (ExprMatrix.full_numeric full)
  | withKind m kind => exact .pure (h m (by simp [operands]))
  | add a b | sub a b =>
      exact ExprMatrix.full_elementwise (h a (by simp [operands])) (h b (by simp [operands]))
  | mul a b => exact ExprMatrix.full_mul a b
  | transpose m => exact .pure (h m (by simp [operands])).transpose
  | beside parts => exact .check fun m => ExprMatrix.full_of_beside h
  | above parts => exact .check fun m => ExprMatrix.full_of_above h
  | element m row col => exact .check fun e => ExprMatrix.full_of_element
  | lowerTriangle m => exact .check fun a => ExprMatrix.full_lowerTriangle
  | forwardDerivative expr arg seed =>
      rw [run, ExprMatrix.forwardDerivative_eq]
      exact ExprMatrix.full_derivative _ expr arg seed
  | reverseDerivative expr arg seed =>
      rw [run, ExprMatrix.reverseDerivative_eq_derivative]
      exact ExprMatrix.full_derivative _ expr arg seed
  | jacobian expr arg => exact ExprMatrix.full_jacobian expr arg

/-- **On whole matrices no place is outside the storage.** -/
theorem byPlace_eq (c : Construction α) (h : ∀ a ∈ c.operands, a.grid.Full) :
    c.byPlace = c.run.adapt .refused := by
  cases c with
  | ofElements | column | symbols | zeros | numeric | withKind | add | sub | beside => rfl
  | identity kind n =>
      rw [byPlace, ExprMatrix.identityByPlace_eq]
      rfl
  | mul a b =>
      exact ExprMatrix.mulByPlace_eq (h a (by simp [operands])) (h b (by simp [operands]))
  | transpose m =>
      rw [byPlace, ExprMatrix.transposeByPlace_eq (h m (by simp [operands]))]
      rfl
  | above parts =>
      have hparts : ∀ p ∈ parts, p.grid.Full := h
      rw [byPlace, ExprMatrix.aboveByPlace_eq hparts]
      rfl
  | element m row col =>
      rw [byPlace, ExprMatrix.elementByPlace_eq (h m (by simp [operands]))]
      rfl
  | lowerTriangle m =>
      rw [byPlace, ExprMatrix.lowerTriangleByPlace_eq (h m (by simp [operands]))]
      rfl
  | forwardDerivative expr arg seed =>
      rw [run, ExprMatrix.forwardDerivative_eq]
      exact ExprMatrix.derivativeByPlace_eq (h seed (by simp [operands]))
  | reverseDerivative expr arg seed =>
      rw [run, ExprMatrix.reverseDerivative_eq_derivative]
      exact ExprMatrix.derivativeByPlace_eq (h seed (by simp [operands]))
  | jacobian expr arg => exact ExprMatrix.jacobianByPlace_eq expr arg

end Construction

namespace ExprMatrix

variable {α : Type} [Scalar α]

/-- **Whatever is made is whole**, by induction on what it is made of. -/
theorem Made.full {m : ExprMatrix α} (h : m.Made) : m.grid.Full := by
  induction h with
  | construct c n _ hrun ih => exact c.run_full ih n _ hrun

/-! ## The number of elements of a derivative -/

omit [Scalar α] in
/-- Kinds that do not combine are refused as kinds. -/
theorem combineKinds_error {operation : Operation} {kinds : List Kind} {e : AlgebraError}
    (h : combineKinds operation kinds = .error e) : ¬e.IsMiscount := by
  rcases combineKinds_cases operation kinds with
    ⟨kind, _, hrun⟩ | ⟨before, after, first, next, rfl, hbefore, hclash⟩
  · exact nomatch hrun.symm.trans h
  · obtain rfl := Except.error.inj ((combineKinds_of_clash operation hbefore hclash).symm.trans h)
    rintro ⟨left, right, hshapes⟩
    exact nomatch hshapes

omit [Scalar α] in
theorem symbolIds_error {arg : ExprMatrix α} {e : AlgebraError} (h : arg.symbolIds = .error e) :
    ¬e.IsMiscount := by
  obtain ⟨x, _, hx⟩ := exists_of_mapM_eq_error h
  cases x with
  | symbol id name => exact nomatch hx
  | const | unary | binary =>
      obtain rfl := Except.error.inj hx
      rintro ⟨left, right, hshapes⟩
      exact nomatch hshapes

omit [Scalar α] in
/-- **A derivative is never refused for the number of its elements.** -/
theorem derivative_ne_miscount (mode : Mode α) (expr arg seed : ExprMatrix α) :
    OnFailure (derivative mode expr arg seed) fun e => ¬e.IsMiscount := by
  rw [derivative]
  refine .check_bind (fun e => combineKinds_error) fun kind => .refuse ?_ fun _ => ?_
  · rintro ⟨left, right, hshapes⟩
    cases hshapes
  · refine .check_bind (fun e => symbolIds_error) fun symbols => ?_
    refine .lift_bind (length_columns mode seed symbols) fun columns hlength => ?_
    refine .check fun e he => ?_
    rw [ofElements_eq_ok_iff.mpr ⟨hlength, rfl⟩] at he
    cases he

theorem jacobian_ne_miscount (expr arg : ExprMatrix α) :
    OnFailure (jacobian expr arg) fun e => ¬e.IsMiscount := by
  rw [jacobian]
  refine .lift_bind (full_identity .dm arg.numel) fun unit _ => ?_
  rw [forwardDerivative_eq]
  exact derivative_ne_miscount _ expr arg unit

/-! ## Everything that can be made -/

/-- A matrix is stored whole: there is an element for every position of its shape, and reading fails
outside the shape only. -/
structure StoredWhole (m : ExprMatrix α) : Prop where
  length : m.elements.length = m.rows * m.cols
  inside : ∀ row col, row < m.rows → col < m.cols → ∃ e, m.get row col = .ok e
  outside : ∀ row col, ¬(row < m.rows ∧ col < m.cols) →
    m.get row col = .error (.noElement row col m.shape)
  /-- The place that is looked at is one of the storage. -/
  place : ∀ row col, m.getByPlace row col = Fault.ofRefusal (m.get row col)

omit [Scalar α] in
theorem storedWhole_of_full {m : ExprMatrix α} (hm : m.grid.Full) : m.StoredWhole where
  length := hm
  inside _ _ hrow hcol := (exists_get hm hrow hcol).imp fun _ h => h.1
  outside _ _ := get_of_outside
  place := getByPlace_eq hm

/-- **Every matrix that can be made is stored whole, no construction looks outside the storage of
such matrices, and derivatives have the elements that their shapes ask for.** -/
theorem made_storedWhole :
    (∀ m : ExprMatrix α, m.Made → m.StoredWhole) ∧
    (∀ c : Construction α, (∀ a ∈ c.operands, a.Made) →
      c.byPlace = c.run.adapt .refused ∧ ∀ n, (c.byPlace n).1 ≠ .error .outside) ∧
    ∀ expr arg seed : ExprMatrix α,
      OnFailure (expr.forwardDerivative arg seed) (fun e => ¬e.IsMiscount) ∧
      OnFailure (expr.reverseDerivative arg seed) (fun e => ¬e.IsMiscount) ∧
      OnFailure (expr.jacobian arg) fun e => ¬e.IsMiscount := by
  refine ⟨fun m hm => storedWhole_of_full hm.full, fun c hoperands => ?_, fun expr arg seed => ?_⟩
  · have hplaces := c.byPlace_eq fun a ha => (hoperands a ha).full
    refine ⟨hplaces, fun n => ?_⟩
    rw [hplaces, adapt_eq]
    cases (c.run n).1 with
    | error e => exact fun h => nomatch h
    | ok m => exact fun h => nomatch h
  · rw [forwardDerivative_eq, reverseDerivative_eq_derivative]
    exact ⟨derivative_ne_miscount _ expr arg seed, derivative_ne_miscount _ expr arg seed,
      jacobian_ne_miscount expr arg⟩

/-! Two rows of three symbols, and the three rows of two that they are as columns. -/

/-- Two rows of symbols. -/
def twoRows : ExprMatrix Float := (symbols .sx "x" 2 3 0).1

theorem twoRows_made : twoRows.Made :=
  .construct (.symbols .sx "x" 2 3) 0 (List.forall_mem_nil _) rfl

theorem made_storedWhole_twoRows :
    twoRows.transpose.elements.length = 3 * 2 ∧
    twoRows.transpose.get 1 2 = .error (.noElement 1 2 (3, 2)) ∧
    ((Construction.jacobian twoRows.transpose twoRows).byPlace 6).1 ≠ .error .outside := by
  have hmade : twoRows.transpose.Made :=
    .construct (.transpose twoRows) 6 (List.forall_mem_singleton.mpr twoRows_made) rfl
  obtain ⟨hwhole, hplaces, _⟩ := made_storedWhole (α := Float)
  have htransposed := hwhole _ hmade
  refine ⟨htransposed.length, htransposed.outside 1 2 (by decide), ?_⟩
  have hoperands : ∀ a ∈ [twoRows.transpose, twoRows], a.Made :=
    List.forall_mem_cons.mpr ⟨hmade, List.forall_mem_singleton.mpr twoRows_made⟩
  exact (hplaces (.jacobian twoRows.transpose twoRows) hoperands).2 6

end ExprMatrix

end ExplicitOde
