import ExplicitOde.Proofs.Computation
import Mathlib.Logic.Relator

/-!
# Two runs in step

Two runs of computations may start at different next identities. They are in step if they always
hand out equally many, so that the identities not handed out stay related in order, and if what
they make is related. Nothing is asked of the relation but that it is one to one: it may keep the
nodes that were there before and move those that are made.

A computation that may fail is matched by one that fails exactly when it does.

Whatever is put together from parts that are in step is in step again, so that **a statement about
two whole runs takes one lemma for each definition**.
-/

namespace ExplicitOde

open Relator (BiUnique)

/-- The identities of two runs that are handed out from `n` and from `n'` on are related in
order. -/
def Onward (ρ : Nat → Nat → Prop) (n n' : Nat) : Prop := ∀ k, ρ (n + k) (n' + k)

theorem Onward.head {ρ : Nat → Nat → Prop} {n n' : Nat} (h : Onward ρ n n') : ρ n n' := h 0

theorem Onward.tail {ρ : Nat → Nat → Prop} {n n' : Nat} (h : Onward ρ n n') :
    Onward ρ (n + 1) (n' + 1) := by
  intro k
  have hnext := h (k + 1)
  rwa [← Nat.add_assoc, Nat.add_right_comm, ← Nat.add_assoc, Nat.add_right_comm n'] at hnext

/-- The identities of two runs of which one starts at `n` and the other at `n'`. -/
def Shifted (n n' i j : Nat) : Prop := i + n' = j + n

/-- Wherever two runs start, their identities are related in order. -/
theorem onward_shifted (n n' : Nat) : Onward (Shifted n n') n n' := by
  intro k
  unfold Shifted
  omega

theorem biUnique_shifted (n n' : Nat) : BiUnique (Shifted n n') := by
  constructor
  · intro i j k h h'
    unfold Shifted at h h'
    omega
  · intro i j k h h'
    unfold Shifted at h h'
    omega

/-- The identities of two runs over the same nodes, with identities below a bound. The nodes that
one run makes from `n` on are those that the other makes from `n'` on. -/
def Moved (bound n n' i j : Nat) : Prop := (i < bound ∧ i = j) ∨ (n ≤ i ∧ i + n' = j + n)

theorem onward_moved (bound n n' : Nat) : Onward (Moved bound n n') n n' := by
  intro k
  right
  omega

theorem biUnique_moved {bound n n' : Nat} (hn : bound ≤ n) (hn' : bound ≤ n') :
    BiUnique (Moved bound n n') := by
  constructor
  · intro i j k h h'
    unfold Moved at h h'
    omega
  · intro i j k h h'
    unfold Moved at h h'
    omega

variable {β β' γ γ' ε : Type} {ρ : Nat → Nat → Prop} {R : β → β' → Prop} {S : γ → γ' → Prop}

/-- Choices between what is related are related, if they are made alike. -/
theorem rel_ite {p p' : Prop} [Decidable p] [Decidable p'] {b c : β} {b' c' : β'} (hp : p ↔ p')
    (h : R b b') (hc : R c c') : R (if p then b else c) (if p' then b' else c') := by
  by_cases hcase : p
  · rw [if_pos hcase, if_pos (hp.mp hcase)]
    exact h
  · rw [if_neg hcase, if_neg fun h' => hcase (hp.mpr h')]
    exact hc

/-- Lists of related pairs come from related lists. -/
theorem forall₂_zip_zip {bs : List β} {bs' : List β'} {cs : List γ} {cs' : List γ'}
    (hbs : List.Forall₂ R bs bs') (hcs : List.Forall₂ S cs cs') :
    List.Forall₂ (fun p p' => R p.1 p'.1 ∧ S p.2 p'.2) (bs.zip cs) (bs'.zip cs') := by
  induction hbs generalizing cs cs' with
  | nil => exact .nil
  | cons hb _ ih =>
      cases hcs with
      | nil => exact .nil
      | cons hc hrest => exact .cons ⟨hb, hc⟩ (ih hrest)

/-! ## Computations that cannot fail -/

/-- Two runs that begin in step end in step, with results that are related. -/
def InStep (ρ : Nat → Nat → Prop) (m : Build β) (m' : Build β') (R : β → β' → Prop) : Prop :=
  ∀ n n', Onward ρ n n' → R (m n).1 (m' n').1 ∧ Onward ρ (m n).2 (m' n').2

namespace InStep

variable {m : Build β} {m' : Build β'} {f : β → Build γ} {f' : β' → Build γ'}

theorem pure {b : β} {b' : β'} (h : R b b') : InStep ρ (Pure.pure b) (Pure.pure b') R :=
  fun _ _ hn => ⟨h, hn⟩

theorem bind (h : InStep ρ m m' R) (hf : ∀ b b', R b b' → InStep ρ (f b) (f' b') S) :
    InStep ρ (m >>= f) (m' >>= f') S := by
  intro n n' hn
  exact hf _ _ (h n n' hn).1 _ _ (h n n' hn).2

/-- What always holds of the results holds of them in step. -/
theorem and {P : β → Prop} {P' : β' → Prop} (h : InStep ρ m m' R) (hm : Always m P)
    (hm' : Always m' P') : InStep ρ m m' fun b b' => R b b' ∧ P b ∧ P' b' := by
  intro n n' hn
  exact ⟨⟨(h n n' hn).1, hm n, hm' n'⟩, (h n n' hn).2⟩

theorem ite {p p' : Prop} [Decidable p] [Decidable p'] {k : Build β} {k' : Build β'} (hp : p ↔ p')
    (h : InStep ρ m m' R) (hk : InStep ρ k k' R) :
    InStep ρ (if p then m else k) (if p' then m' else k') R :=
  rel_ite (R := fun l l' => InStep ρ l l' R) hp h hk

/-- A run that is in step with one over the same nodes takes back no identity. The run starts one
further on, so that its counterpart would hand out an identity that belongs to no node. -/
theorem next_le {n : Nat} (h : InStep (Moved n n (n + 1)) m m' R) : n ≤ (m n).2 := by
  obtain ⟨_, hnext⟩ := h n (n + 1) (onward_moved n n (n + 1))
  by_contra hback
  have hhead := hnext.head
  have hat := hnext (n - (m n).2)
  unfold Moved at hhead hat
  omega

/-- Runs over lists that are related element by element. -/
theorem mapM {bs : List β} {bs' : List β'} (hbs : List.Forall₂ R bs bs')
    (hf : ∀ b b', R b b' → InStep ρ (f b) (f' b') S) :
    InStep ρ (bs.mapM f) (bs'.mapM f') (List.Forall₂ S) := by
  induction hbs with
  | nil => exact InStep.pure .nil
  | @cons b b' bs bs' hb _ ih =>
      rw [List.mapM_cons, List.mapM_cons]
      refine (hf b b' hb).bind fun c c' hc => ih.bind fun cs cs' hcs => ?_
      exact InStep.pure (.cons hc hcs)

/-- Runs over one list. -/
theorem mapM_self {δ : Type} {ds : List δ} {g : δ → Build γ} {g' : δ → Build γ'}
    (hg : ∀ d, InStep ρ (g d) (g' d) S) :
    InStep ρ (ds.mapM g) (ds.mapM g') (List.Forall₂ S) := by
  refine InStep.mapM (R := Eq) (List.forall₂_refl ds) ?_
  rintro d _ rfl
  exact hg d

/-- What every pair of steps keeps is kept by the runs. -/
theorem foldlM {bs : List β} {bs' : List β'} (hbs : List.Forall₂ R bs bs') {g : γ → β → Build γ}
    {g' : γ' → β' → Build γ'}
    (hg : ∀ c c', S c c' → ∀ b b', R b b' → InStep ρ (g c b) (g' c' b') S) {c : γ} {c' : γ'}
    (hc : S c c') : InStep ρ (bs.foldlM g c) (bs'.foldlM g' c') S := by
  induction hbs generalizing c c' with
  | nil => exact InStep.pure hc
  | cons hb _ ih =>
      rw [List.foldlM_cons, List.foldlM_cons]
      exact (hg c c' hc _ _ hb).bind fun d d' hd => ih hd

end InStep

/-! ## Outcomes -/

/-- Two outcomes are both failures, or related results. -/
inductive Outcome (R : β → β' → Prop) : Except ε β → Except ε β' → Prop where
  | ok {b : β} {b' : β'} (h : R b b') : Outcome R (.ok b) (.ok b')
  | error {e e' : ε} : Outcome R (.error e) (.error e')

namespace Outcome

variable {c : Except ε β} {c' : Except ε β'} {f : β → Except ε γ} {f' : β' → Except ε γ'}

theorem bind (h : Outcome R c c') (hf : ∀ b b', R b b' → Outcome S (f b) (f' b')) :
    Outcome S (c >>= f) (c' >>= f') := by
  cases h with
  | ok h => exact hf _ _ h
  | error => exact .error

theorem mapM {bs : List β} {bs' : List β'} (hbs : List.Forall₂ R bs bs')
    (hf : ∀ b b', R b b' → Outcome S (f b) (f' b')) :
    Outcome (List.Forall₂ S) (bs.mapM f) (bs'.mapM f') := by
  induction hbs with
  | nil => exact .ok .nil
  | cons hb _ ih =>
      rw [List.mapM_cons, List.mapM_cons]
      exact (hf _ _ hb).bind fun d d' hd => ih.bind fun ds ds' hds => .ok (.cons hd hds)

/-- After one check. -/
theorem bind_self {δ : Type} {c : Except ε δ} {g : δ → Except ε γ} {g' : δ → Except ε γ'}
    (hg : ∀ d, Outcome S (g d) (g' d)) : Outcome S (c >>= g) (c >>= g') := by
  cases c with
  | ok d => exact hg d
  | error e => exact .error

/-- Checks of one list. -/
theorem mapM_self {δ : Type} {ds : List δ} {g : δ → Except ε γ} {g' : δ → Except ε γ'}
    (hg : ∀ d, Outcome S (g d) (g' d)) : Outcome (List.Forall₂ S) (ds.mapM g) (ds.mapM g') := by
  refine Outcome.mapM (R := Eq) (List.forall₂_refl ds) ?_
  rintro d _ rfl
  exact hg d

/-- What matches a success is one. -/
theorem exists_ok {b : β} (h : Outcome R (.ok b : Except ε β) c') : ∃ b', c' = .ok b' ∧ R b b' := by
  cases h with
  | ok h => exact ⟨_, rfl, h⟩

end Outcome

/-! ## Computations that may fail -/

/-- Two runs that begin in step end in step, both with failures or with results that are related. -/
def Together (ρ : Nat → Nat → Prop) (x : Attempt ε β) (x' : Attempt ε β') (R : β → β' → Prop) :
    Prop :=
  InStep ρ x.run x'.run (Outcome R)

namespace Together

variable {x : Attempt ε β} {x' : Attempt ε β'} {f : β → Attempt ε γ} {f' : β' → Attempt ε γ'}

theorem pure {b : β} {b' : β'} (h : R b b') :
    Together ρ (Pure.pure b : Attempt ε β) (Pure.pure b') R :=
  InStep.pure (.ok h)

theorem throw (e e' : ε) : Together ρ (throw e : Attempt ε β) (throw e' : Attempt ε β') R :=
  InStep.pure .error

theorem throw_bind (e e' : ε) :
    Together ρ (MonadExcept.throw e >>= f : Attempt ε γ) (MonadExcept.throw e' >>= f') S :=
  InStep.pure .error

theorem bind (h : Together ρ x x' R) (hf : ∀ b b', R b b' → Together ρ (f b) (f' b') S) :
    Together ρ (x >>= f) (x' >>= f') S := by
  intro n n' hn
  change Outcome S (ExceptT.bindCont f (x n).1 (x n).2).1
      (ExceptT.bindCont f' (x' n').1 (x' n').2).1 ∧
    Onward ρ (ExceptT.bindCont f (x n).1 (x n).2).2
      (ExceptT.bindCont f' (x' n').1 (x' n').2).2
  obtain ⟨hout, hnext⟩ : Outcome R (x n).1 (x' n').1 ∧ Onward ρ (x n).2 (x' n').2 := h n n' hn
  generalize (x n).1 = c at hout
  generalize (x' n').1 = c' at hout
  cases hout with
  | ok hb => exact hf _ _ hb _ _ hnext
  | error => exact ⟨.error, hnext⟩

theorem lift {m : Build β} {m' : Build β'} (h : InStep ρ m m' R) :
    Together ρ (liftM m : Attempt ε β) (liftM m') R := by
  intro n n' hn
  exact ⟨.ok (h n n' hn).1, (h n n' hn).2⟩

theorem check {c : Except ε β} {c' : Except ε β'} (h : Outcome R c c') :
    Together ρ (liftM c : Attempt ε β) (liftM c') R := by
  cases h with
  | ok h => exact Together.pure h
  | error => exact Together.throw _ _

/-- After one check. -/
theorem check_bind_self {δ : Type} {c : Except ε δ} {g : δ → Attempt ε γ} {g' : δ → Attempt ε γ'}
    (hg : ∀ d, Together ρ (g d) (g' d) S) :
    Together ρ (liftM c >>= g) (liftM c >>= g') S := by
  cases c with
  | ok d => exact hg d
  | error e => exact throw_bind e e

theorem ite {p p' : Prop} [Decidable p] [Decidable p'] {y : Attempt ε β} {y' : Attempt ε β'}
    (hp : p ↔ p') (h : Together ρ x x' R) (hy : Together ρ y y' R) :
    Together ρ (if p then x else y) (if p' then x' else y') R :=
  rel_ite (R := fun z z' => Together ρ z z' R) hp h hy

/-- Causes of failures do not count. -/
theorem adapt {ε' : Type} (h : Together ρ x x' R) (rename rename' : ε → ε') :
    Together ρ (x.adapt rename) (x'.adapt rename') R := by
  intro n n' hn
  refine ⟨?_, (h n n' hn).2⟩
  change Outcome R (Except.mapError rename (x n).1) (Except.mapError rename' (x' n').1)
  have hout : Outcome R (x n).1 (x' n').1 := (h n n' hn).1
  generalize (x n).1 = c at hout
  generalize (x' n').1 = c' at hout
  cases hout with
  | ok h => exact .ok h
  | error => exact .error

/-- Where one run succeeds, so does the other. -/
theorem exists_ok (h : Together ρ x x' R) {n n' : Nat} (hn : Onward ρ n n') {b : β} {next : Nat}
    (hrun : x n = (.ok b, next)) :
    ∃ b' next', x' n' = (.ok b', next') ∧ R b b' ∧ Onward ρ next next' := by
  have hboth : Outcome R (x n).1 (x' n').1 ∧ Onward ρ (x n).2 (x' n').2 := h n n' hn
  rw [hrun] at hboth
  obtain ⟨b', hb', hR⟩ := hboth.1.exists_ok
  exact ⟨b', (x' n').2, Prod.ext hb' rfl, hR, hboth.2⟩

end Together

end ExplicitOde
