import ExplicitOde.Proofs.Computation
import ExplicitOde.Proofs.Expr.Order
import ExplicitOde.Proofs.Expr.Shortcut

/-!
# Expressions that building leaves as they are

`Constructed` is a run of the four constructors of expressions, in any order and over whatever was
made before.

* **What is made is settled.** No operation in it is one that building would fold or leave out:
  `Constructed.settled`.
* **Settled trees are built again as they are.** Whether an operation has a shortcut depends on the
  trees of its operands, and on their identities only as far as these tell a node from itself:
  `SameTree.unaryShortcut?_eq_none` and `SameTree.binaryShortcut?_eq_none`.
-/

namespace ExplicitOde

namespace Expr

variable {α : Type}

/-- The same operations on the same constants and symbols. Of identities only those of symbols
count. -/
inductive SameTree : Expr α → Expr α → Prop where
  | const {i j : Nat} {v : α} : SameTree (const i v) (const j v)
  | symbol {i : Nat} {name : String} : SameTree (symbol i name) (symbol i name)
  | unary {i j : Nat} {op : UnaryOp} {a a' : Expr α} : SameTree a a' →
      SameTree (unary i op a) (unary j op a')
  | binary {i j : Nat} {op : BinaryOp} {a a' b b' : Expr α} : SameTree a a' → SameTree b b' →
      SameTree (binary i op a b) (binary j op a' b')

theorem SameTree.constant?_eq {a a' : Expr α} (h : SameTree a a') :
    a'.constant? = a.constant? := by
  cases h <;> rfl

variable [Scalar α]

/-- No operation in the expression has a shortcut. -/
def Settled : Expr α → Prop
  | const _ _ => True
  | symbol _ _ => True
  | unary _ op a => unaryShortcut? op a = none ∧ a.Settled
  | binary _ op a b => binaryShortcut? op a b = none ∧ a.Settled ∧ b.Settled

/-! ## Building settled expressions -/

theorem mkUnary_settled (op : UnaryOp) {a : Expr α} (ha : a.Settled) :
    Always (mkUnary op a) Settled := by
  intro n
  rw [mkUnary]
  cases hs : unaryShortcut? op a with
  | none => exact ⟨hs, ha⟩
  | some s =>
      rcases unaryShortcut?_cases hs with ⟨_, _, v, _, _, rfl⟩ | ⟨_, inner, _, rfl, rfl⟩
      · exact trivial
      · exact ha.2

theorem mkBinary_settled (op : BinaryOp) {a b : Expr α} (ha : a.Settled) (hb : b.Settled) :
    Always (mkBinary op a b) Settled := by
  have hold : ∀ e, e = a ∨ e = b → e.Settled := by
    rintro e (rfl | rfl)
    · exact ha
    · exact hb
  intro n
  rw [mkBinary]
  cases hs : binaryShortcut? op a b with
  | none => exact ⟨hs, ha, hb⟩
  | some s =>
      have hamong := binaryShortcut?_among hs
      cases s with
      | constant v => exact trivial
      | existing e => exact hold e hamong
      | negated e => exact mkUnary_settled .neg (hold e hamong) n

/-! ## Building settled expressions again -/

section Shortcuts

variable {a a' b b' : Expr α}

theorem SameTree.unaryShortcut?_eq_none {op : UnaryOp} (h : SameTree a a')
    (hnone : unaryShortcut? op a = none) : unaryShortcut? op a' = none := by
  unfold unaryShortcut? at hnone ⊢
  rw [h.constant?_eq]
  split at hnone
  · exact nomatch hnone
  · cases h with
    | const | symbol | binary => cases op <;> rfl
    | unary =>
        split at hnone
        · exact nomatch hnone
        · split <;> simp_all

theorem SameTree.isConstant_eq (h : SameTree a a') (v : α) :
    a'.isConstant v = a.isConstant v := by
  rw [isConstant, isConstant, h.constant?_eq]

/-- The difference of two expressions asks whether they are the same. All other rules look at
constants only. -/
theorem SameTree.binaryShortcut?_eq_none {op : BinaryOp} (ha : SameTree a a') (hb : SameTree b b')
    (hsame : a'.isSame b' = true → a.isSame b = true) (hnone : binaryShortcut? op a b = none) :
    binaryShortcut? op a' b' = none := by
  have hneutral : neutralShortcut? op a b = none → neutralShortcut? op a' b' = none := by
    intro h
    cases op <;>
      simp only [neutralShortcut?, isZero, isOne, isNegOne, ha.isConstant_eq,
        hb.isConstant_eq] at h ⊢ <;>
      split_ifs at h ⊢ <;> simp_all
  unfold binaryShortcut? constants? at hnone ⊢
  rw [ha.constant?_eq, hb.constant?_eq]
  split at hnone
  · cases hnone
  · exact hneutral hnone

end Shortcuts

/-! ## Runs of constructors -/

/-- A run of the constructors of expressions: the least identity not handed out, and what was made.
Other runs may take identities at any time. -/
inductive Constructed : Nat → List (Expr α) → Prop where
  | start (next : Nat) : Constructed next []
  | elsewhere {next later : Nat} {made : List (Expr α)} : Constructed next made → next ≤ later →
      Constructed later made
  | symbol {next : Nat} {made : List (Expr α)} (name : String) : Constructed next made →
      Constructed (mkSymbol name next : Expr α × Nat).2 ((mkSymbol name next).1 :: made)
  | const {next : Nat} {made : List (Expr α)} (value : α) : Constructed next made →
      Constructed (mkConst value next).2 ((mkConst value next).1 :: made)
  | unary {next : Nat} {made : List (Expr α)} (op : UnaryOp) {a : Expr α} :
      Constructed next made → a ∈ made →
      Constructed (mkUnary op a next).2 ((mkUnary op a next).1 :: made)
  | binary {next : Nat} {made : List (Expr α)} (op : BinaryOp) {a b : Expr α} :
      Constructed next made → a ∈ made → b ∈ made →
      Constructed (mkBinary op a b next).2 ((mkBinary op a b next).1 :: made)

namespace Constructed

variable {next : Nat} {made : List (Expr α)}

/-- **What the constructors make is settled.** -/
theorem settled (h : Constructed next made) : ∀ e ∈ made, e.Settled := by
  induction h with
  | start => simp
  | elsewhere _ _ ih => exact ih
  | symbol _ _ ih | const _ _ ih => exact List.forall_mem_cons.mpr ⟨trivial, ih⟩
  | unary op _ ha ih => exact List.forall_mem_cons.mpr ⟨mkUnary_settled op (ih _ ha) _, ih⟩
  | binary op _ ha hb ih =>
      exact List.forall_mem_cons.mpr ⟨mkBinary_settled op (ih _ ha) (ih _ hb) _, ih⟩

/-- What the constructors make is in a pool. -/
theorem exists_pool (h : Constructed next made) :
    ∃ pool : Pool α, pool.next = next ∧ ∀ e ∈ made, e ∈ pool := by
  induction h with
  | start next => exact ⟨.empty next, rfl, by simp⟩
  | elsewhere _ hlater ih =>
      obtain ⟨pool, rfl, hmade⟩ := ih
      exact ⟨pool.later hlater, rfl, hmade⟩
  | symbol name _ ih =>
      obtain ⟨pool, rfl, hmade⟩ := ih
      have hnew : pool.Ensures (mkSymbol name) fun after e => e ∈ after :=
        ⟨pool.growSymbol name, Pool.le_grow _ _, rfl, Pool.mem_grow _ _⟩
      exact hnew.exists_cons (fun e => e) (fun hle => Pool.mem_of_le hle) hmade
  | const value _ ih =>
      obtain ⟨pool, rfl, hmade⟩ := ih
      have hnew : pool.Ensures (mkConst value) fun after e => e ∈ after :=
        (mkConst_mem value).imp fun _ _ _ h => h.1
      exact hnew.exists_cons (fun e => e) (fun hle => Pool.mem_of_le hle) hmade
  | unary op _ ha ih =>
      obtain ⟨pool, rfl, hmade⟩ := ih
      exact (mkUnary_mem op (hmade _ ha)).exists_cons (fun e => e)
        (fun hle => Pool.mem_of_le hle) hmade
  | binary op _ ha hb ih =>
      obtain ⟨pool, rfl, hmade⟩ := ih
      exact (mkBinary_mem op (hmade _ ha) (hmade _ hb)).exists_cons (fun e => e)
        (fun hle => Pool.mem_of_le hle) hmade

end Constructed

end Expr

end ExplicitOde
