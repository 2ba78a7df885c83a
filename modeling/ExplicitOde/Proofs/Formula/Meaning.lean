import ExplicitOde.Proofs.Exact.Value
import ExplicitOde.Proofs.Expr.Simplify
import ExplicitOde.Proofs.Formula.Lower

/-!
# What formulas mean

A formula has a value of its own, in exact arithmetic: names have given values, operations are what
their signs say, and functions are what their names say. It has none where an operation in it has
none.

The expression of a formula has this value, whatever is folded or left out on the way to it.
-/

namespace ExplicitOde

open ExplicitOde.Expr

/-! ## Operations by sign and by name -/

open Classical in
/-- A power, where it is a real number. A negative base has powers with integral exponents only. -/
noncomputable def powerValue? (u v : ℝ) : Option ℝ :=
  if 0 < u ∨ u = 0 ∧ 0 ≤ v ∨ u ≠ 0 ∧ ∃ n : ℤ, v = n then some (u ^ v) else none

open Classical in
/-- An operation on two numbers by its sign, where it has a value. -/
noncomputable def signValue? (op : BinaryOp) (u v : ℝ) : Option ℝ :=
  match op with
  | .add => some (u + v)
  | .sub => some (u - v)
  | .mul => some (u * v)
  | .div => if v = 0 then none else some (u / v)
  | .pow => powerValue? u v

open Classical in
/-- A function of one number by its name, where it has a value. -/
noncomputable def functionValue? (name : String) (v : ℝ) : Option ℝ :=
  match name with
  | "sin" => some (Real.sin v)
  | "cos" => some (Real.cos v)
  | "tan" => if Real.cos v = 0 then none else some (Real.tan v)
  | "asin" => if -1 ≤ v ∧ v ≤ 1 then some (Real.arcsin v) else none
  | "acos" => if -1 ≤ v ∧ v ≤ 1 then some (Real.arccos v) else none
  | "atan" => some (Real.arctan v)
  | "sinh" => some (Real.sinh v)
  | "cosh" => some (Real.cosh v)
  | "tanh" => some (Real.tanh v)
  | "exp" => some (Real.exp v)
  | "log" => if 0 < v then some (Real.log v) else none
  | "sqrt" => if 0 ≤ v then some (Real.sqrt v) else none
  | _ => none

/-- The callable functions by name. -/
theorem UnaryOp.ofName?_eq_some {name : String} {op : UnaryOp}
    (h : UnaryOp.ofName? name = some op) : op ∈ callable ∧ op.name = name := by
  obtain ⟨hname, before, after, hsplit, _⟩ := List.find?_eq_some_iff_append.mp h
  refine ⟨?_, by simpa using hname⟩
  rw [hsplit]
  exact List.mem_append_right before List.mem_cons_self

/-- A callable function is what its name says. -/
theorem functionValue?_of_ofName? {name : String} {op : UnaryOp} {v w : ℝ}
    (h : UnaryOp.ofName? name = some op) (hw : functionValue? name v = some w) :
    op.Regular .defined v ∧ op.real v = w := by
  obtain ⟨hmem, rfl⟩ := UnaryOp.ofName?_eq_some h
  -- one case for every function
  simp only [UnaryOp.callable, List.mem_cons, List.not_mem_nil, or_false] at hmem
  rcases hmem with rfl | rfl | rfl | rfl | rfl | rfl | rfl | rfl | rfl | rfl | rfl | rfl <;>
    simp_all [functionValue?, UnaryOp.name, UnaryOp.Regular, UnaryOp.real]

/-- An operation is what its sign says. -/
theorem signValue?_eq_some {op : BinaryOp} {fixed : Prop} {u v w : ℝ}
    (h : signValue? op u v = some w) : op.Regular .defined fixed u v ∧ op.real u v = w := by
  cases op <;> simp_all [signValue?, powerValue?, BinaryOp.Regular, BinaryOp.real]

variable {α : Type} [ExactScalar α] {table : SymbolTable α} {pool : Pool α} {σ : Nat → ℝ}

/-! ## Values of formulas -/

namespace Formula

/-- The value of a formula where names have the values of `env`, if it has one. The name `pi` is the
circle constant unless it has a value. -/
noncomputable def exactValue (env : String → Option ℝ) : Formula α → Option ℝ
  | .number v => some (ExactScalar.real v)
  | .name s =>
    match env s with
    | some v => some v
    | none => if s = "pi" then some (ExactScalar.real (Scalar.pi : α)) else none
  | .neg f => (f.exactValue env).map fun v => -v
  | .binary op f g => (f.exactValue env).bind fun u => (g.exactValue env).bind (signValue? op u)
  | .call function args =>
    match args with
    | [f, g] =>
      if function = "pow" then
        (f.exactValue env).bind fun u => (g.exactValue env).bind (powerValue? u)
      else none
    | [f] => (f.exactValue env).bind (functionValue? function)
    | _ => none

/-- The expression is a node that has the value of the formula, if the formula has one. -/
def Means (env : String → Option ℝ) (σ : Nat → ℝ) (p : Pool α) (f : Formula α)
    (e : Expr α) : Prop :=
  e ∈ p ∧ ∀ v, f.exactValue env = some v → e.exactValue σ = some v

variable {env : String → Option ℝ}

theorem mkUnary_means {f : Formula α} {op : UnaryOp} {a : Expr α} (ha : a ∈ pool)
    (h : ∀ v, f.exactValue env = some v → ∃ u, a.exactValue σ = some u ∧
      op.Regular .defined u ∧ op.real u = v) :
    pool.Ensures (mkUnary op a) fun after => Means env σ after f := by
  have hhas : pool.Has .defined σ a (a.real σ) (a.Within .defined σ) := ⟨ha, rfl, fun h => h⟩
  refine (mkUnary_ensures hhas).imp fun after e _ he => ⟨he.mem, fun v hv => ?_⟩
  obtain ⟨u, hu, hregular, rfl⟩ := h v hv
  obtain ⟨hwithin, rfl⟩ := exactValue_eq_some_iff.mp hu
  exact exactValue_eq_some_iff.mpr ⟨he.within ⟨hwithin, hregular⟩, he.real⟩

theorem mkBinary_means {f : Formula α} {op : BinaryOp} {a b : Expr α} (ha : a ∈ pool)
    (hb : b ∈ pool) (h : ∀ w, f.exactValue env = some w → ∃ u v, a.exactValue σ = some u ∧
      b.exactValue σ = some v ∧ signValue? op u v = some w) :
    pool.Ensures (mkBinary op a b) fun after => Means env σ after f := by
  have hhas : ∀ {e : Expr α}, e ∈ pool → pool.Has .defined σ e (e.real σ) (e.Within .defined σ) :=
    fun he => ⟨he, rfl, fun h => h⟩
  refine (mkBinary_ensures (hhas ha) (hhas hb)).imp fun after e _ he => ⟨he.mem, fun w hw => ?_⟩
  obtain ⟨u, v, hu, hv, hsign⟩ := h w hw
  obtain ⟨hregular, rfl⟩ := signValue?_eq_some hsign
  obtain ⟨hwithin, rfl⟩ := exactValue_eq_some_iff.mp hu
  obtain ⟨hwithin', rfl⟩ := exactValue_eq_some_iff.mp hv
  exact exactValue_eq_some_iff.mpr ⟨he.within ⟨hwithin, hwithin', hregular⟩, he.real⟩

/-- **The expression of a formula has its value**, if the expressions of names have theirs. -/
theorem lowering_means (hnames : ∀ s e, table.lookup s = some e →
      e ∈ pool ∧ ∃ v, env s = some v ∧ e.exactValue σ = some v)
    (hpi : table.lookup "pi" = none → env "pi" = none) : Lowering table pool (Means env σ) where
  grow hle h := ⟨Pool.mem_of_le hle h.1, h.2⟩
  number _ v := (mkConst_mem v).imp fun after e _ ⟨he, _, hconst⟩ => by
    subst hconst
    exact ⟨he, fun _ h => h⟩
  name {p s e} hle hs := by
    obtain ⟨he, u, henv, hu⟩ := hnames s e hs
    refine ⟨Pool.mem_of_le hle he, fun v hv => ?_⟩
    rw [exactValue, henv] at hv
    exact hu.trans hv
  pi _ hs := (mkConst_mem _).imp fun after e _ ⟨he, _, hconst⟩ => by
    -- without an entry of its own, `pi` is the constant
    subst hconst
    refine ⟨he, fun v hv => ?_⟩
    rw [exactValue, hpi hs] at hv
    exact hv
  neg h := mkUnary_means h.1 fun v hv => by
    rw [exactValue] at hv
    obtain ⟨u, hu, rfl⟩ := Option.map_eq_some_iff.mp hv
    exact ⟨u, h.2 u hu, trivial, rfl⟩
  binary op ha hb := mkBinary_means ha.1 hb.1 fun w hw => by
    rw [exactValue] at hw
    obtain ⟨u, hu, hw⟩ := Option.bind_eq_some_iff.mp hw
    obtain ⟨v, hv, hw⟩ := Option.bind_eq_some_iff.mp hw
    exact ⟨u, v, ha.2 u hu, hb.2 v hv, hw⟩
  power ha hb := mkBinary_means ha.1 hb.1 fun w hw => by
    rw [exactValue] at hw
    obtain ⟨u, hu, hw⟩ := Option.bind_eq_some_iff.mp hw
    obtain ⟨v, hv, hw⟩ := Option.bind_eq_some_iff.mp hw
    exact ⟨u, v, ha.2 u hu, hb.2 v hv, hw⟩
  call hop ha := mkUnary_means ha.1 fun w hw => by
    rw [exactValue] at hw
    obtain ⟨u, hu, hw⟩ := Option.bind_eq_some_iff.mp hw
    exact ⟨u, ha.2 u hu, functionValue?_of_ofName? hop hw⟩

end Formula

end ExplicitOde
