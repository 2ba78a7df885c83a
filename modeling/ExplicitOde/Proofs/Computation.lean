import ExplicitOde.Expr.Build
import Mathlib.Data.List.Forall2

/-!
# Computations on all elements of a list

What `mapM` does in the three kinds of computations that occur: checks, which may fail; builds,
which make nodes; and builds that may fail.
-/

namespace ExplicitOde

variable {β γ ε : Type}

/-- Checks of all elements pass if each does. -/
theorem mapM_eq_ok_iff {f : β → Except ε γ} {bs : List β} {cs : List γ} :
    bs.mapM f = .ok cs ↔ List.Forall₂ (fun b c => f b = .ok c) bs cs := by
  induction bs generalizing cs with
  | nil =>
      rw [List.mapM_nil, List.forall₂_nil_left_iff]
      constructor
      · intro h
        injection h with h
        exact h.symm
      · rintro rfl
        rfl
  | cons b bs ih =>
      rw [List.mapM_cons, List.forall₂_cons_left_iff]
      constructor
      · intro h
        cases hb : f b with
        | error e =>
            rw [hb] at h
            injection h
        | ok c =>
            cases hbs : bs.mapM f with
            | error e =>
                rw [hb, hbs] at h
                injection h
            | ok rest =>
                rw [hb, hbs] at h
                injection h with h
                exact ⟨c, rest, rfl, ih.mp hbs, h.symm⟩
      · rintro ⟨c, rest, hc, hrest, rfl⟩
        rw [hc, ih.mpr hrest]
        rfl

/-- Checks that all pass give results as each of them does. -/
theorem exists_mapM_ok {f : β → Except ε γ} {post : γ → Prop} {bs : List β}
    (h : ∀ b ∈ bs, ∃ c, f b = .ok c ∧ post c) :
    ∃ cs, bs.mapM f = .ok cs ∧ ∀ c ∈ cs, post c := by
  induction bs with
  | nil => exact ⟨[], rfl, fun c hc => absurd hc List.not_mem_nil⟩
  | cons b bs ih =>
      obtain ⟨c, hc, hpost⟩ := h b List.mem_cons_self
      obtain ⟨cs, hcs, hall⟩ := ih fun b' hb' => h b' (List.mem_cons_of_mem b hb')
      refine ⟨c :: cs, ?_, List.forall_mem_cons.mpr ⟨hpost, hall⟩⟩
      rw [List.mapM_cons, hc, hcs]
      rfl

/-- If elements are refused together, one of them is. -/
theorem exists_of_mapM_eq_error {f : β → Except ε γ} {bs : List β} {e : ε}
    (h : bs.mapM f = .error e) : ∃ b ∈ bs, f b = .error e := by
  induction bs with
  | nil => exact nomatch h
  | cons b bs ih =>
      rw [List.mapM_cons] at h
      cases hb : f b with
      | error e' =>
          rw [hb] at h
          obtain rfl := Except.error.inj h
          exact ⟨b, List.mem_cons_self, hb⟩
      | ok c =>
          cases hbs : bs.mapM f with
          | error e' =>
              rw [hb, hbs] at h
              obtain rfl := Except.error.inj h
              obtain ⟨b', hb', he⟩ := ih hbs
              exact ⟨b', List.mem_cons_of_mem b hb', he⟩
          | ok cs =>
              rw [hb, hbs] at h
              exact nomatch h

/-- Checks under other names for causes. -/
theorem mapM_mapError {ε' : Type} {f : β → Except ε γ} {g : β → Except ε' γ} {rename : ε → ε'}
    {bs : List β} (h : ∀ b ∈ bs, g b = (f b).mapError rename) :
    bs.mapM g = (bs.mapM f).mapError rename := by
  induction bs with
  | nil => rfl
  | cons b bs ih =>
      rw [List.mapM_cons, List.mapM_cons, h b List.mem_cons_self,
        ih fun b' hb' => h b' (List.mem_cons_of_mem b hb')]
      cases f b with
      | error e => rfl
      | ok c => cases bs.mapM f <;> rfl

/-- Two checks pass if the first does and the second does after it. -/
theorem bind_eq_ok_iff {c : Except ε β} {f : β → Except ε γ} {d : γ} :
    c >>= f = .ok d ↔ ∃ b, c = .ok b ∧ f b = .ok d := by
  cases c with
  | error e =>
      constructor
      · intro h
        injection h
      · rintro ⟨b, hb, _⟩
        injection hb
  | ok b =>
      constructor
      · exact fun h => ⟨b, rfl, h⟩
      · rintro ⟨b', hb, h⟩
        injection hb with hb
        exact hb ▸ h

/-- Every element makes one result. -/
theorem length_mapM_build (f : β → Build γ) (bs : List β) (n : Nat) :
    (bs.mapM f n).1.length = bs.length := by
  induction bs generalizing n with
  | nil => rfl
  | cons b bs ih =>
      rw [List.mapM_cons]
      exact congrArg Nat.succ (ih (f b n).2)

/-! ## What holds whatever the next identity is -/

/-- The result is as `post` says, whatever identities are handed out. -/
def Always (m : Build β) (post : β → Prop) : Prop := ∀ n, post (m n).1

theorem Always.imp {m : Build β} {P Q : β → Prop} (h : Always m P) (hPQ : ∀ b, P b → Q b) :
    Always m Q :=
  fun n => hPQ _ (h n)

theorem Always.pure {b : β} {post : β → Prop} (h : post b) : Always (Pure.pure b) post :=
  fun _ => h

theorem Always.bind {m : Build β} {f : β → Build γ} {P : β → Prop} {Q : γ → Prop}
    (h : Always m P) (hf : ∀ b, P b → Always (f b) Q) : Always (m >>= f) Q :=
  fun n => hf _ (h n) (m n).2

/-- What holds of the result of each element holds of all of them, place by place. -/
theorem Always.forall₂_mapM {P : β → γ → Prop} {f : β → Build γ} {bs : List β}
    (h : ∀ b ∈ bs, Always (f b) (P b)) : Always (bs.mapM f) (List.Forall₂ P bs) := by
  induction bs with
  | nil => exact fun n => List.Forall₂.nil
  | cons b bs ih =>
      intro n
      have hrest := ih fun b' hb' => h b' (List.mem_cons_of_mem b hb')
      rw [List.mapM_cons]
      exact List.Forall₂.cons (h b List.mem_cons_self n) (hrest (f b n).2)

/-- What holds of every result by itself holds of all results. -/
theorem Always.mapM {post : γ → Prop} {f : β → Build γ} {bs : List β}
    (h : ∀ b ∈ bs, Always (f b) post) : Always (bs.mapM f) fun cs => ∀ c ∈ cs, post c :=
  (Always.forall₂_mapM (P := fun _ => post) h).imp fun _ hall =>
    ((List.forall₂_and_left (R := fun _ _ => True) _ _).mp
      (hall.flip.imp fun _ _ hc => ⟨hc, trivial⟩)).1

/-- What every step keeps holds at the end. -/
theorem Always.foldlM {post : γ → Prop} {f : γ → β → Build γ} {bs : List β} {c : γ} (hc : post c)
    (h : ∀ c, post c → ∀ b ∈ bs, Always (f c b) post) : Always (bs.foldlM f c) post := by
  induction bs generalizing c with
  | nil => exact fun n => hc
  | cons b bs ih =>
      rw [List.foldlM_cons]
      exact (h c hc b List.mem_cons_self).bind fun c' hc' =>
        ih hc' fun c'' hc'' b' hb' => h c'' hc'' b' (List.mem_cons_of_mem b hb')

/-- Computations that cannot fail do not fail together. -/
theorem mapM_lift (f : β → Build γ) (bs : List β) :
    bs.mapM (fun b => (liftM (f b) : Attempt ε γ)) = liftM (bs.mapM f) := by
  induction bs with
  | nil => rfl
  | cons b bs ih =>
      rw [List.mapM_cons, ih, List.mapM_cons]
      rfl

/-- Computations that are the same for every element are the same for all of them. -/
theorem mapM_congr {f g : β → Attempt ε γ} {bs : List β} (h : ∀ b ∈ bs, f b = g b) :
    bs.mapM f = bs.mapM g := by
  induction bs with
  | nil => rfl
  | cons b bs ih =>
      rw [List.mapM_cons, List.mapM_cons, h b List.mem_cons_self,
        ih fun b' hb' => h b' (List.mem_cons_of_mem b hb')]

/-- Steps that cannot fail do not fail one after the other. -/
theorem foldlM_lift {δ : Type} {f : δ → γ → Build δ} {g : δ → β → Attempt ε δ} {bs : List β}
    {cs : List γ} (h : List.Forall₂ (fun b c => ∀ d, g d b = liftM (f d c)) bs cs) (d : δ) :
    bs.foldlM g d = liftM (cs.foldlM f d) := by
  induction h generalizing d with
  | nil => rfl
  | cons hone _ ih =>
      rw [List.foldlM_cons, List.foldlM_cons, hone]
      funext n
      exact congrFun (ih _) _

/-! ## Success -/

variable {n : Nat} {d : γ}

/-- A computation that begins with a check succeeds if the check passes and the rest succeeds. -/
theorem check_bind_run_iff {c : Except ε β} {f : β → Attempt ε γ} :
    ((liftM c >>= f : Attempt ε γ) n).1 = .ok d ↔ ∃ b, c = .ok b ∧ (f b n).1 = .ok d := by
  cases c with
  | error e =>
      constructor
      · intro h
        injection h
      · rintro ⟨b, hb, _⟩
        injection hb
  | ok b =>
      constructor
      · intro h
        exact ⟨b, rfl, h⟩
      · rintro ⟨b', hb, h⟩
        injection hb with hb
        exact hb ▸ h

/-- A computation that is refused under a condition succeeds if the condition does not hold and the
rest succeeds. -/
theorem refuse_run_iff {p : Prop} [Decidable p] {e : ε} {f : β → Attempt ε γ} {x : Attempt ε γ} :
    ((if p then throw e >>= f else x : Attempt ε γ) n).1 = .ok d ↔ ¬p ∧ (x n).1 = .ok d := by
  by_cases hp : p
  · rw [if_pos hp]
    constructor
    · intro h
      injection h
    · intro h
      exact absurd hp h.1
  · rw [if_neg hp]
    exact ⟨fun h => ⟨hp, h⟩, fun h => h.2⟩

/-- The computation succeeds with a result as `post` says, whatever identities are handed out. -/
def Succeeds (x : Attempt ε β) (post : β → Prop) : Prop := ∀ n, ∃ b, (x n).1 = .ok b ∧ post b

theorem Succeeds.imp {x : Attempt ε β} {P Q : β → Prop} (h : Succeeds x P)
    (hPQ : ∀ b, P b → Q b) : Succeeds x Q := by
  intro n
  obtain ⟨b, hb, hp⟩ := h n
  exact ⟨b, hb, hPQ b hp⟩

theorem Succeeds.pure {b : β} {post : β → Prop} (h : post b) :
    Succeeds (Pure.pure b : Attempt ε β) post :=
  fun _ => ⟨b, rfl, h⟩

theorem Succeeds.lift {m : Build β} {post : β → Prop} (h : Always m post) :
    Succeeds (liftM m : Attempt ε β) post :=
  fun n => ⟨(m n).1, rfl, h n⟩

theorem Succeeds.check {c : Except ε β} {b : β} {post : β → Prop} (hc : c = .ok b) (h : post b) :
    Succeeds (liftM c : Attempt ε β) post :=
  fun _ => ⟨b, by rw [hc]; rfl, h⟩

theorem build_bind_run {x : Build β} {b : β} {f : β → Build γ} {next : Nat}
    (h : x n = (b, next)) : (x >>= f) n = f b next := by
  change f (x n).1 (x n).2 = f b next
  rw [h]

/-- Where the first part is known to succeed, the rest is run after it. -/
theorem bind_run {x : Attempt ε β} {b : β} {f : β → Attempt ε γ} {next : Nat}
    (h : x n = (.ok b, next)) : (x >>= f) n = f b next := by
  change ExceptT.bindCont f (x n).1 (x n).2 = f b next
  rw [h]
  rfl

/-- Where the first part is known to fail, so does the whole. -/
theorem bind_run_error {x : Attempt ε β} {e : ε} {f : β → Attempt ε γ} {next : Nat}
    (h : x n = (.error e, next)) : (x >>= f) n = (.error e, next) := by
  change ExceptT.bindCont f (x n).1 (x n).2 = (.error e, next)
  rw [h]
  rfl

/-- A computation succeeds if its first part does and the rest does after it. -/
theorem bind_run_iff {x : Attempt ε β} {f : β → Attempt ε γ} :
    ((x >>= f) n).1 = .ok d ↔ ∃ b next, x n = (.ok b, next) ∧ (f b next).1 = .ok d := by
  constructor
  · intro h
    cases hx : x n with
    | mk r next =>
        have h : (ExceptT.bindCont f (x n).1 (x n).2).1 = .ok d := h
        rw [hx] at h
        cases r with
        | error e => injection h
        | ok b => exact ⟨b, next, rfl, h⟩
  · rintro ⟨b, next, hx, h⟩
    rw [bind_run hx]
    exact h

/-- Under other names for causes a computation runs as before. -/
theorem adapt_eq {ε' : Type} (x : Attempt ε γ) (rename : ε → ε') (n : Nat) :
    (x.adapt rename) n = (Except.mapError rename (x n).1, (x n).2) := rfl

/-- What succeeds under other names for causes succeeds. -/
theorem adapt_run_ok {ε' : Type} {x : Attempt ε γ} {rename : ε → ε'}
    (h : ((x.adapt rename) n).1 = .ok d) : (x n).1 = .ok d := by
  change Except.mapError rename (x n).1 = .ok d at h
  cases hx : (x n).1 with
  | error e =>
      rw [hx] at h
      injection h
  | ok c =>
      rw [hx] at h
      injection h with h
      rw [h]

/-- Causes are renamed only where there are any. -/
theorem adapt_run {ε' : Type} {x : Attempt ε γ} (rename : ε → ε') (h : (x n).1 = .ok d) :
    ((x.adapt rename) n).1 = .ok d := by
  change Except.mapError rename (x n).1 = .ok d
  rw [h]
  rfl

theorem Succeeds.bind {x : Attempt ε β} {f : β → Attempt ε γ} {P : β → Prop} {Q : γ → Prop}
    (h : Succeeds x P) (hf : ∀ b, P b → Succeeds (f b) Q) : Succeeds (x >>= f) Q := by
  intro n
  obtain ⟨b, hb, hp⟩ := h n
  rw [bind_run (Prod.ext hb rfl)]
  exact hf b hp (x n).2

theorem Succeeds.check_bind {c : Except ε β} {b : β} {f : β → Attempt ε γ} {post : γ → Prop}
    (hc : c = .ok b) (h : Succeeds (f b) post) : Succeeds (liftM c >>= f) post := by
  subst hc
  exact h

/-- If the computation succeeds its result is as `post` says, whatever identities are handed
out. -/
def OnSuccess (x : Attempt ε β) (post : β → Prop) : Prop := ∀ n b, (x n).1 = .ok b → post b

theorem OnSuccess.imp {x : Attempt ε β} {P Q : β → Prop} (h : OnSuccess x P)
    (hPQ : ∀ b, P b → Q b) : OnSuccess x Q :=
  fun n b hb => hPQ b (h n b hb)

theorem OnSuccess.pure {b : β} {post : β → Prop} (h : post b) :
    OnSuccess (Pure.pure b : Attempt ε β) post := by
  intro n b' hb
  injection hb with hb
  exact hb ▸ h

theorem OnSuccess.fail {e : ε} {post : β → Prop} : OnSuccess (throw e : Attempt ε β) post := by
  intro n b hb
  injection hb

theorem OnSuccess.lift {m : Build β} {post : β → Prop} (h : Always m post) :
    OnSuccess (liftM m : Attempt ε β) post := by
  intro n b hb
  injection hb with hb
  exact hb ▸ h n

theorem OnSuccess.check {c : Except ε β} {post : β → Prop} (h : ∀ b, c = .ok b → post b) :
    OnSuccess (liftM c : Attempt ε β) post := by
  cases c with
  | error e => exact OnSuccess.fail
  | ok b => exact OnSuccess.pure (h b rfl)

theorem OnSuccess.bind {x : Attempt ε β} {f : β → Attempt ε γ} {P : β → Prop} {Q : γ → Prop}
    (h : OnSuccess x P) (hf : ∀ b, P b → OnSuccess (f b) Q) : OnSuccess (x >>= f) Q := by
  intro n d hd
  obtain ⟨b, next, hx, hrest⟩ := bind_run_iff.mp hd
  exact hf b (h n b (by rw [hx])) next d hrest

theorem OnSuccess.check_bind {c : Except ε β} {f : β → Attempt ε γ} {post : γ → Prop}
    (h : ∀ b, c = .ok b → OnSuccess (f b) post) : OnSuccess (liftM c >>= f) post :=
  (OnSuccess.check fun _ hb => hb).bind h

/-- A computation that is refused under a condition. -/
theorem OnSuccess.refuse {p : Prop} [Decidable p] {e : ε} {f : β → Attempt ε γ}
    {x : Attempt ε γ} {post : γ → Prop} (h : ¬p → OnSuccess x post) :
    OnSuccess (if p then throw e >>= f else x) post := by
  intro n d hd
  obtain ⟨hp, hx⟩ := refuse_run_iff.mp hd
  exact h hp n d hx

theorem lift_run {m : Build β} : (liftM m : Attempt ε β) n = (.ok (m n).1, (m n).2) := rfl

/-- What cannot fail is run, and then the rest. -/
theorem lift_bind_run {m : Build β} {f : β → Attempt ε γ} :
    (liftM m >>= f : Attempt ε γ) n = f (m n).1 (m n).2 := rfl

/-! ## Failure -/

/-- If the computation fails the cause is as `post` says, whatever identities are handed out. -/
def OnFailure (x : Attempt ε β) (post : ε → Prop) : Prop := ∀ n e, (x n).1 = .error e → post e

section

variable {post : ε → Prop}

theorem OnFailure.check {c : Except ε β} (h : ∀ e, c = .error e → post e) :
    OnFailure (liftM c : Attempt ε β) post := by
  intro n e he
  cases c with
  | error e' =>
      obtain rfl := Except.error.inj he
      exact h e' rfl
  | ok b => exact nomatch he

theorem OnFailure.check_bind {c : Except ε β} {f : β → Attempt ε γ}
    (h : ∀ e, c = .error e → post e) (hf : ∀ b, OnFailure (f b) post) :
    OnFailure (liftM c >>= f) post := by
  intro n e he
  cases c with
  | error e' =>
      obtain rfl := Except.error.inj he
      exact h e' rfl
  | ok b => exact hf b n e he

theorem OnFailure.lift_bind {m : Build β} {f : β → Attempt ε γ} {P : β → Prop} (h : Always m P)
    (hf : ∀ b, P b → OnFailure (f b) post) : OnFailure (liftM m >>= f) post :=
  fun n e he => hf _ (h n) (m n).2 e he

/-- A computation that is refused under a condition. -/
theorem OnFailure.refuse {p : Prop} [Decidable p] {e : ε} {f : β → Attempt ε γ} {x : Attempt ε γ}
    (he : post e) (h : ¬p → OnFailure x post) :
    OnFailure (if p then throw e >>= f else x) post := by
  by_cases hp : p
  · rw [if_pos hp]
    intro n e' he'
    obtain rfl := Except.error.inj he'
    exact he
  · rw [if_neg hp]
    exact h hp

end

end ExplicitOde
