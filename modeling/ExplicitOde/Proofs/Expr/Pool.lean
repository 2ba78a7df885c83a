import ExplicitOde.Expr.Build
import Mathlib.Data.List.Forall2
import Mathlib.Data.List.Nodup
import Mathlib.Data.Set.Insert

/-!
# Pools of nodes

A pool is the set of all nodes that exist at one time, with the least identity not handed out. What
makes identities meaningful is kept in it: operands of nodes are nodes, and no two nodes have one
identity. The empty pool is one, and every operation that makes expressions goes from a pool to a
larger one, whatever nodes it shares.

`Pool.Ensures` is the specification of a computation that makes expressions: run on a pool it ends
with a larger pool and a result of a certain sort. `Pool.Yields` is the same for computations that
may fail, and says nothing about failures.
-/

namespace ExplicitOde

variable {α β γ ε : Type}

/-- All nodes that exist at one time. -/
structure Pool (α : Type) where
  /-- The least identity not handed out. -/
  next : Nat
  nodes : Set (Expr α)
  id_lt : ∀ e ∈ nodes, e.id < next
  operand_mem : ∀ e ∈ nodes, ∀ a ∈ e.operands, a ∈ nodes
  /-- An identity belongs to one node. -/
  eq_of_id : ∀ a ∈ nodes, ∀ b ∈ nodes, a.id = b.id → a = b

namespace Pool

instance : Membership (Expr α) (Pool α) := ⟨fun pool e => e ∈ pool.nodes⟩

/-- A pool is followed by those that have all its nodes. -/
instance : LE (Pool α) := ⟨fun pool after => pool.nodes ⊆ after.nodes⟩

theorem le_refl (pool : Pool α) : pool ≤ pool := Set.Subset.refl _

theorem le_trans {a b c : Pool α} (h₁ : a ≤ b) (h₂ : b ≤ c) : a ≤ c := Set.Subset.trans h₁ h₂

theorem mem_of_le {pool after : Pool α} (h : pool ≤ after) {e : Expr α} (he : e ∈ pool) :
    e ∈ after := h he

/-- No nodes at all. -/
def empty (next : Nat) : Pool α where
  next := next
  nodes := ∅
  id_lt _ h := h.elim
  operand_mem _ h := h.elim
  eq_of_id _ h := h.elim

/-- One more node, with the next identity. -/
def grow (pool : Pool α) (e : Expr α) (hid : e.id = pool.next)
    (hops : ∀ a ∈ e.operands, a ∈ pool) : Pool α where
  next := pool.next + 1
  nodes := insert e pool.nodes
  id_lt := by
    rintro x (rfl | hx)
    · omega
    · exact Nat.lt_succ_of_lt (pool.id_lt x hx)
  operand_mem := by
    rintro x (rfl | hx) a ha
    · exact Or.inr (hops a ha)
    · exact Or.inr (pool.operand_mem x hx a ha)
  eq_of_id := by
    rintro a (rfl | ha) b (rfl | hb) hab
    · rfl
    · exact absurd (hab ▸ hid) (Nat.ne_of_lt (pool.id_lt b hb))
    · exact absurd (hab.symm ▸ hid) (Nat.ne_of_lt (pool.id_lt a ha))
    · exact pool.eq_of_id a ha b hb hab

/-- One more symbol. -/
def growSymbol (pool : Pool α) (name : String) : Pool α :=
  pool.grow (.symbol pool.next name) rfl fun _ h => absurd h List.not_mem_nil

theorem le_grow {pool : Pool α} {e : Expr α} (hid : e.id = pool.next)
    (hops : ∀ a ∈ e.operands, a ∈ pool) : pool ≤ pool.grow e hid hops :=
  Set.subset_insert _ _

theorem mem_grow {pool : Pool α} {e : Expr α} (hid : e.id = pool.next)
    (hops : ∀ a ∈ e.operands, a ∈ pool) : e ∈ pool.grow e hid hops :=
  Set.mem_insert _ _

/-- Symbols alone, with identities of their own. -/
def ofSymbols (next : Nat) (es : List (Expr α))
    (hsymbols : ∀ e ∈ es, e.isSymbol = true ∧ e.id < next)
    (hdistinct : (es.map Expr.id).Nodup) : Pool α where
  next := next
  nodes := {e | e ∈ es}
  id_lt e he := (hsymbols e he).2
  operand_mem e he a ha := by
    cases e with
    | symbol => exact absurd ha List.not_mem_nil
    | _ => exact Bool.noConfusion (hsymbols _ he).1
  eq_of_id _ ha _ hb h := List.inj_on_of_nodup_map hdistinct ha hb h

/-- The same nodes, when identities were handed out elsewhere. -/
def later (pool : Pool α) {next : Nat} (h : pool.next ≤ next) : Pool α where
  next := next
  nodes := pool.nodes
  id_lt e he := Nat.lt_of_lt_of_le (pool.id_lt e he) h
  operand_mem := pool.operand_mem
  eq_of_id := pool.eq_of_id

theorem le_later (pool : Pool α) {next : Nat} (h : pool.next ≤ next) : pool ≤ pool.later h :=
  le_refl pool

/-! ## What a computation does to a pool -/

/-- Run on a pool, `m` ends with a larger pool and a result as `post` says. -/
def Ensures (pool : Pool α) (m : Build β) (post : Pool α → β → Prop) : Prop :=
  ∃ after : Pool α, pool ≤ after ∧ after.next = (m pool.next).2 ∧ post after (m pool.next).1

/-- If `x` succeeds on a pool, it ends with a larger pool and a result as `post` says. -/
def Yields (pool : Pool α) (x : Attempt ε β) (post : Pool α → β → Prop) : Prop :=
  pool.Ensures x.run fun after r => ∀ b, r = .ok b → post after b

theorem Ensures.imp {pool : Pool α} {m : Build β} {P Q : Pool α → β → Prop}
    (h : pool.Ensures m P) (hPQ : ∀ after b, pool ≤ after → P after b → Q after b) :
    pool.Ensures m Q := by
  obtain ⟨after, hle, hnext, hp⟩ := h
  exact ⟨after, hle, hnext, hPQ after _ hle hp⟩

theorem Ensures.pure {pool : Pool α} {b : β} {post : Pool α → β → Prop} (h : post pool b) :
    pool.Ensures (Pure.pure b) post :=
  ⟨pool, le_refl pool, rfl, h⟩

theorem Ensures.bind {pool : Pool α} {m : Build β} {f : β → Build γ} {P : Pool α → β → Prop}
    {Q : Pool α → γ → Prop} (h : pool.Ensures m P)
    (hf : ∀ after b, pool ≤ after → P after b → after.Ensures (f b) Q) :
    pool.Ensures (m >>= f) Q := by
  obtain ⟨mid, hle, hnext, hp⟩ := h
  obtain ⟨after, hle', hnext', hq⟩ := hf mid _ hle hp
  rw [hnext] at hnext' hq
  exact ⟨after, le_trans hle hle', hnext', hq⟩

/-- What holds of the result of the run by itself can be added to a specification. -/
theorem Ensures.and {pool : Pool α} {m : Build β} {P : Pool α → β → Prop} {Q : β → Prop}
    (h : pool.Ensures m P) (hq : Q (m pool.next).1) :
    pool.Ensures m fun after b => P after b ∧ Q b := by
  obtain ⟨after, hle, hnext, hp⟩ := h
  exact ⟨after, hle, hnext, hp, hq⟩

/-- One more result beside those that were there, each as `post` says. -/
theorem Ensures.exists_cons {pool : Pool α} {m : Build β} {post : Pool α → γ → Prop} {made : List γ}
    (result : β → γ) (hmono : ∀ {p p' : Pool α} {c}, p ≤ p' → post p c → post p' c)
    (hmade : ∀ c ∈ made, post pool c) (h : pool.Ensures m fun after b => post after (result b)) :
    ∃ after : Pool α, after.next = (m pool.next).2 ∧
      ∀ c ∈ result (m pool.next).1 :: made, post after c := by
  obtain ⟨after, hle, hnext, hpost⟩ := h
  exact ⟨after, hnext, List.forall_mem_cons.mpr ⟨hpost, fun c hc => hmono hle (hmade c hc)⟩⟩

/-- Results made one after the other, each as `post` says of what it was made from. What is said of
a result stays true while the pool grows. -/
theorem Ensures.mapM {f : β → Build γ} {post : Pool α → β → γ → Prop}
    (hmono : ∀ {p p' : Pool α} {b c}, p ≤ p' → post p b c → post p' b c) :
    ∀ {bs : List β} {pool : Pool α},
      (∀ after, pool ≤ after → ∀ b ∈ bs, after.Ensures (f b) fun after' => post after' b) →
      pool.Ensures (bs.mapM f) fun after => List.Forall₂ (post after) bs := by
  intro bs
  induction bs with
  | nil =>
      intro pool _
      rw [List.mapM_nil]
      exact Ensures.pure List.Forall₂.nil
  | cons b bs ih =>
      intro pool h
      rw [List.mapM_cons]
      refine (h pool (le_refl pool) b List.mem_cons_self).bind fun p₁ c hle₁ hc => ?_
      have hrest := ih fun after hle b' hb' =>
        h after (le_trans hle₁ hle) b' (List.mem_cons_of_mem b hb')
      refine hrest.bind fun p₂ cs hle₂ hcs => ?_
      exact Ensures.pure (List.Forall₂.cons (hmono hle₂ hc) hcs)

theorem Yields.imp {pool : Pool α} {x : Attempt ε β} {P Q : Pool α → β → Prop}
    (h : pool.Yields x P) (hPQ : ∀ after b, pool ≤ after → P after b → Q after b) :
    pool.Yields x Q :=
  Ensures.imp h fun after _ hle hp b hb => hPQ after b hle (hp b hb)

theorem Yields.pure {pool : Pool α} {b : β} {post : Pool α → β → Prop} (h : post pool b) :
    pool.Yields (Pure.pure b : Attempt ε β) post :=
  ⟨pool, le_refl pool, rfl, fun b' hb' => by injection hb' with hb'; exact hb' ▸ h⟩

/-- A computation that cannot fail, as one that may. -/
theorem Yields.lift {pool : Pool α} {m : Build β} {post : Pool α → β → Prop}
    (h : pool.Ensures m post) : pool.Yields (liftM m : Attempt ε β) post := by
  obtain ⟨after, hle, hnext, hp⟩ := h
  exact ⟨after, hle, hnext, fun b' hb' => by injection hb' with hb'; exact hb' ▸ hp⟩

/-- A check that makes no nodes. -/
theorem Yields.check {pool : Pool α} {c : Except ε β} {post : Pool α → β → Prop}
    (h : ∀ b, c = .ok b → post pool b) : pool.Yields (liftM c : Attempt ε β) post := by
  refine ⟨pool, le_refl pool, ?_, ?_⟩
  · cases c <;> rfl
  · intro b hb
    cases c with
    | error e => exact absurd hb (by intro h; injection h)
    | ok b' => injection hb with hb; exact hb ▸ h b' rfl

theorem Yields.bind {pool : Pool α} {x : Attempt ε β} {f : β → Attempt ε γ}
    {P : Pool α → β → Prop} {Q : Pool α → γ → Prop} (h : pool.Yields x P)
    (hf : ∀ after b, pool ≤ after → P after b → after.Yields (f b) Q) :
    pool.Yields (x >>= f) Q := by
  have hrun : (x >>= f).run = x.run >>= ExceptT.bindCont f := rfl
  rw [Yields, hrun]
  refine Ensures.bind h ?_
  intro after r hle hp
  cases r with
  | error e => exact ⟨after, le_refl after, rfl, fun b hb => by injection hb⟩
  | ok b => exact hf after b hle (hp b rfl)

/-- A check makes no nodes; what follows has that it passed. -/
theorem Yields.check_bind {pool : Pool α} {c : Except ε β} {f : β → Attempt ε γ}
    {post : Pool α → γ → Prop} (h : ∀ b, c = .ok b → pool.Yields (f b) post) :
    pool.Yields (liftM c >>= f) post := by
  cases c with
  | error e => exact ⟨pool, le_refl pool, rfl, fun _ hb => by injection hb⟩
  | ok b => exact h b rfl

/-- Of a failure anything can be said. -/
theorem Yields.fail {pool : Pool α} {e : ε} {post : Pool α → β → Prop} :
    pool.Yields (throw e : Attempt ε β) post :=
  ⟨pool, le_refl pool, rfl, fun _ hb => by injection hb⟩

/-- What follows a failure does not matter. -/
theorem Yields.throw_bind {pool : Pool α} {e : ε} {f : β → Attempt ε γ}
    {post : Pool α → γ → Prop} : pool.Yields (throw e >>= f) post :=
  ⟨pool, le_refl pool, rfl, fun _ hb => by injection hb⟩

theorem Yields.mapM {f : β → Attempt ε γ} {post : Pool α → β → γ → Prop}
    (hmono : ∀ {p p' : Pool α} {b c}, p ≤ p' → post p b c → post p' b c) :
    ∀ {bs : List β} {pool : Pool α},
      (∀ after, pool ≤ after → ∀ b ∈ bs, after.Yields (f b) fun after' => post after' b) →
      pool.Yields (bs.mapM f) fun after => List.Forall₂ (post after) bs := by
  intro bs
  induction bs with
  | nil =>
      intro pool _
      rw [List.mapM_nil]
      exact Yields.pure List.Forall₂.nil
  | cons b bs ih =>
      intro pool h
      rw [List.mapM_cons]
      refine (h pool (le_refl pool) b List.mem_cons_self).bind fun p₁ c hle₁ hc => ?_
      have hrest := ih fun after hle b' hb' =>
        h after (le_trans hle₁ hle) b' (List.mem_cons_of_mem b hb')
      refine hrest.bind fun p₂ cs hle₂ hcs => ?_
      exact Yields.pure (List.Forall₂.cons (hmono hle₂ hc) hcs)

/-- A run has one result, so that what is said of it in several ways can be said together. The pools
need not be the same. -/
theorem Yields.and_forall {ι : Type} {pool : Pool α} {x : Attempt ε β} {P : Pool α → β → Prop}
    {Q : ι → Pool α → β → Prop} (h : pool.Yields x P) (hq : ∀ i, pool.Yields x (Q i)) :
    pool.Yields x fun after b => P after b ∧ ∀ i, ∃ other, Q i other b := by
  obtain ⟨after, hle, hnext, hp⟩ := h
  refine ⟨after, hle, hnext, fun b hb => ⟨hp b hb, fun i => ?_⟩⟩
  obtain ⟨other, _, _, hi⟩ := hq i
  exact ⟨other, hi b hb⟩

/-- The result is that of the run. -/
theorem Yields.run {pool : Pool α} {x : Attempt ε β} {post : Pool α → β → Prop}
    (h : pool.Yields x post) :
    pool.Yields x fun after b => post after b ∧ (x pool.next).1 = .ok b := by
  obtain ⟨after, hle, hnext, hp⟩ := h
  exact ⟨after, hle, hnext, fun b hb => ⟨hp b hb, hb⟩⟩

/-- Another name for failures changes nothing. -/
theorem Yields.adapt {ε' : Type} {pool : Pool α} {x : Attempt ε β} {post : Pool α → β → Prop}
    (rename : ε → ε') (h : pool.Yields x post) : pool.Yields (x.adapt rename) post := by
  obtain ⟨after, hle, hnext, hp⟩ := h
  refine ⟨after, hle, hnext, fun b hb => hp b ?_⟩
  have hb : Except.mapError rename (x.run pool.next).1 = .ok b := hb
  cases hx : (x.run pool.next).1 with
  | error e =>
      rw [hx] at hb
      injection hb
  | ok b' =>
      rw [hx] at hb
      injection hb with hb
      rw [hb]

end Pool

end ExplicitOde
