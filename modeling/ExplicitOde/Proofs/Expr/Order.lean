import ExplicitOde.Expr.Order
import ExplicitOde.Proofs.Expr.Pool

/-!
# The order of evaluation lists every node once, after its operands

`traverse` keeps a stack of its own. `Expr.postorder` does the same by plain recursion, and
`traverse_enter` says that the two agree; everything else is proved of the recursion.

* **Order.** Operands stand before the nodes that use them, and no identity stands twice:
  `ordered_evaluationOrder`.
* **Completeness.** The nodes that are listed are those reachable from the roots:
  `mem_evaluationOrder`.
* **Symbols.** The free symbols are those that are listed, in the same order: `freeSymbols_eq`.

All need a pool: in a set of trees where one identity is several trees, entering one of them would
keep the others out. That no node waits for itself is seen from sizes, since a node is entered only
while larger ones are open.
-/

namespace ExplicitOde

variable {α : Type}

namespace Expr

/-- What holds of a node if it holds of its operands holds of all. -/
theorem operand_induction {P : Expr α → Prop} (h : ∀ e, (∀ a ∈ e.operands, P a) → P e) :
    ∀ e, P e := by
  intro e
  induction e with
  | const id v => exact h _ (by simp [operands])
  | symbol id name => exact h _ (by simp [operands])
  | unary id op a iha =>
      refine h _ fun x hx => ?_
      rw [operands, List.mem_singleton] at hx
      exact hx ▸ iha
  | binary id op a b iha ihb =>
      refine h _ fun x hx => ?_
      simp only [operands, List.mem_cons, List.not_mem_nil, or_false] at hx
      rcases hx with rfl | rfl
      · exact iha
      · exact ihb

/-- The second node is the first or one of those below it. -/
inductive Reaches : Expr α → Expr α → Prop where
  | self (e : Expr α) : Reaches e e
  | through {e a x : Expr α} : a ∈ e.operands → Reaches a x → Reaches e x

theorem Reaches.operand {e x a : Expr α} (h : Reaches e x) (ha : a ∈ x.operands) :
    Reaches e a := by
  induction h with
  | self e => exact .through ha (.self a)
  | through hop _ ih => exact .through hop (ih ha)

theorem size_operand_lt {e a : Expr α} (h : a ∈ e.operands) : a.size < e.size := by
  cases e with
  | const => simp [operands] at h
  | symbol => simp [operands] at h
  | unary id op x =>
      rw [operands, List.mem_singleton] at h
      simp [h, size]
  | binary id op x y =>
      simp only [operands, List.mem_cons, List.not_mem_nil, or_false] at h
      rcases h with rfl | rfl <;> simp only [size] <;> omega

end Expr

/-- The nodes of a pool that are reachable from some of them. -/
def Pool.reachable (pool : Pool α) (roots : List (Expr α)) : Pool α where
  next := pool.next
  nodes := {x | x ∈ pool ∧ ∃ e ∈ roots, e.Reaches x}
  id_lt x hx := pool.id_lt x hx.1
  operand_mem := by
    rintro x ⟨hx, e, he, hex⟩ a ha
    exact ⟨pool.operand_mem x hx a ha, e, he, hex.operand ha⟩
  eq_of_id a ha b hb := pool.eq_of_id a ha.1 b hb.1

/-- Nodes reachable from nodes of a pool are in the pool. -/
theorem Pool.mem_of_reaches {pool : Pool α} {e x : Expr α} (he : e ∈ pool) (h : e.Reaches x) :
    x ∈ pool := by
  induction h with
  | self e => exact he
  | through hop _ ih => exact ih (pool.operand_mem _ he _ hop)

/-! ## The traversal by plain recursion -/

/-- How far a traversal has come: the identities entered, and the nodes listed. -/
structure Progress (α : Type) where
  entered : Std.HashSet Nat
  listed : Array (Expr α)

namespace Progress

/-- Enters a node, deals with what is below it, and lists it, unless it was entered before. -/
def visit (p : Progress α) (e : Expr α) (below : Progress α → Progress α) : Progress α :=
  if p.entered.contains e.id then p
  else
    let after := below ⟨p.entered.insert e.id, p.listed⟩
    ⟨after.entered, after.listed.push e⟩

end Progress

/-- Lists the nodes below a node from left to right, and then the node, without those that were
entered before. -/
def Expr.postorder : Expr α → Progress α → Progress α
  | .const id v, p => p.visit (.const id v) fun p => p
  | .symbol id name, p => p.visit (.symbol id name) fun p => p
  | .unary id op a, p => p.visit (.unary id op a) a.postorder
  | .binary id op a b, p => p.visit (.binary id op a b) fun p => b.postorder (a.postorder p)

/-- Several nodes, one after the other. -/
def postorderAll (p : Progress α) (es : List (Expr α)) : Progress α :=
  es.foldl (fun p e => e.postorder p) p

@[simp] theorem postorderAll_nil (p : Progress α) : postorderAll p [] = p := rfl

@[simp] theorem postorderAll_cons (p : Progress α) (e : Expr α) (es : List (Expr α)) :
    postorderAll p (e :: es) = postorderAll (e.postorder p) es := rfl

namespace Expr

theorem postorder_eq (e : Expr α) (p : Progress α) :
    e.postorder p = p.visit e fun p => postorderAll p e.operands := by
  cases e <;> rfl

theorem postorder_of_entered {e : Expr α} {p : Progress α} (h : p.entered.contains e.id = true) :
    e.postorder p = p := by
  rw [postorder_eq, Progress.visit, if_pos h]

theorem postorder_of_not_entered {e : Expr α} {p : Progress α}
    (h : ¬p.entered.contains e.id = true) :
    e.postorder p =
      ⟨(postorderAll ⟨p.entered.insert e.id, p.listed⟩ e.operands).entered,
        (postorderAll ⟨p.entered.insert e.id, p.listed⟩ e.operands).listed.push e⟩ := by
  rw [postorder_eq, Progress.visit, if_neg h]

/-- What was entered stays entered. -/
theorem entered_postorder (e : Expr α) : ∀ (p : Progress α) (i : Nat),
    p.entered.contains i = true → (e.postorder p).entered.contains i = true := by
  induction e using operand_induction with
  | h e ih =>
    have hall : ∀ (es : List (Expr α)), (∀ a ∈ es, a ∈ e.operands) → ∀ (p : Progress α) (i : Nat),
        p.entered.contains i = true → (postorderAll p es).entered.contains i = true := by
      intro es
      induction es with
      | nil => intro _ p i hi; exact hi
      | cons a es ihes =>
          intro hes p i hi
          rw [postorderAll_cons]
          exact ihes (fun x hx => hes x (List.mem_cons_of_mem a hx)) _ i
            (ih a (hes a List.mem_cons_self) p i hi)
    intro p i hi
    by_cases h : p.entered.contains e.id = true
    · rwa [postorder_of_entered h]
    · rw [postorder_of_not_entered h]
      exact hall e.operands (fun a ha => ha) _ i (by simp [Std.HashSet.contains_insert, hi])

end Expr

/-! ## The stack does what the recursion does -/

/-- The operands of a node that were not entered when the stack was made are dealt with as all of
them would be. -/
theorem traverse_operands (es : List (Expr α))
    (hes : ∀ a ∈ es, ∀ (p : Progress α) (stack : List (Visit α)),
      traverse p.entered p.listed (.enter a :: stack) =
        traverse (a.postorder p).entered (a.postorder p).listed stack) :
    ∀ (before : Std.HashSet Nat) (p : Progress α) (stack : List (Visit α)),
      (∀ i, before.contains i = true → p.entered.contains i = true) →
      traverse p.entered p.listed
          ((es.filter fun a => !before.contains a.id).map .enter ++ stack) =
        traverse (postorderAll p es).entered (postorderAll p es).listed stack := by
  induction es with
  | nil => intro before p stack _; rfl
  | cons a es ih =>
      intro before p stack hbefore
      have hrest := ih fun x hx => hes x (List.mem_cons_of_mem a hx)
      by_cases ha : before.contains a.id = true
      · -- an operand that was passed over had been entered, so the recursion does nothing either
        have hskip : ((a :: es).filter fun x => !before.contains x.id) =
            es.filter fun x => !before.contains x.id := by
          rw [List.filter_cons, if_neg (by simp [ha])]
        rw [hskip, postorderAll_cons, Expr.postorder_of_entered (hbefore _ ha)]
        exact hrest before p stack hbefore
      · have hkeep : ((a :: es).filter fun x => !before.contains x.id) =
            a :: es.filter fun x => !before.contains x.id := by
          rw [List.filter_cons, if_pos (by simp [ha])]
        rw [hkeep, List.map_cons, List.cons_append, hes a List.mem_cons_self, postorderAll_cons]
        exact hrest before (a.postorder p) stack fun i hi =>
          Expr.entered_postorder a p i (hbefore i hi)

/-- **The traversal with a stack is the traversal by recursion.** -/
theorem traverse_enter (e : Expr α) : ∀ (p : Progress α) (stack : List (Visit α)),
    traverse p.entered p.listed (.enter e :: stack) =
      traverse (e.postorder p).entered (e.postorder p).listed stack := by
  induction e using Expr.operand_induction with
  | h e ih =>
    intro p stack
    rw [traverse]
    by_cases h : p.entered.contains e.id = true
    · rw [if_pos h, Expr.postorder_of_entered h]
    · rw [if_neg h, Expr.postorder_of_not_entered h, Visit.below, List.append_assoc]
      have hops := traverse_operands e.operands ih (p.entered.insert e.id)
        ⟨p.entered.insert e.id, p.listed⟩ ([.leave e] ++ stack) fun i hi => hi
      rw [hops, List.singleton_append, traverse]

theorem traverse_roots (roots : List (Expr α)) : ∀ (p : Progress α),
    traverse p.entered p.listed (roots.map .enter) = (postorderAll p roots).listed := by
  induction roots with
  | nil => intro p; rw [List.map_nil, traverse, postorderAll_nil]
  | cons e es ih =>
      intro p
      rw [List.map_cons, traverse_enter, postorderAll_cons]
      exact ih (e.postorder p)

/-- **The order of evaluation is the one of plain recursion from left to right.** -/
theorem evaluationOrder_eq (roots : List (Expr α)) :
    evaluationOrder roots = (postorderAll ⟨∅, #[]⟩ roots).listed.toList := by
  rw [evaluationOrder, ← traverse_roots roots ⟨∅, #[]⟩]

/-! ## What the recursion lists -/

/-- Nodes in an order of evaluation: each after its operands, and no identity twice. -/
inductive Ordered : List (Expr α) → Prop where
  | nil : Ordered []
  | snoc {es : List (Expr α)} {e : Expr α} : Ordered es → (∀ a ∈ e.operands, a ∈ es) →
      (∀ x ∈ es, x.id ≠ e.id) → Ordered (es ++ [e])

/-- What holds while the nodes of `opened` wait for what is below them. -/
structure Progress.Inv (pool : Pool α) (opened : List (Expr α)) (p : Progress α) : Prop where
  /-- The nodes entered are those listed and those that wait. -/
  entered : ∀ e ∈ pool, p.entered.contains e.id = true ↔ e ∈ p.listed.toList ∨ e ∈ opened
  listed : ∀ e ∈ p.listed.toList, e ∈ pool
  /-- A node that waits is not listed. -/
  waits : ∀ e ∈ opened, e ∉ p.listed.toList
  ordered : Ordered p.listed.toList

/-- A node that is entered waits for what is below it. -/
theorem Progress.Inv.enter {pool : Pool α} {opened : List (Expr α)} {p : Progress α} {e : Expr α}
    (hp : p.Inv pool opened) (he : e ∈ pool) (h : ¬p.entered.contains e.id = true) :
    Progress.Inv pool (e :: opened) ⟨p.entered.insert e.id, p.listed⟩ where
  entered x hx := by
    rw [Std.HashSet.contains_insert, Bool.or_eq_true, hp.entered x hx, List.mem_cons, beq_iff_eq]
    constructor
    · rintro (hid | hl | ho)
      · exact Or.inr (Or.inl (pool.eq_of_id e he x hx hid).symm)
      · exact Or.inl hl
      · exact Or.inr (Or.inr ho)
    · rintro (hl | rfl | ho)
      · exact Or.inr (Or.inl hl)
      · exact Or.inl rfl
      · exact Or.inr (Or.inr ho)
  listed := hp.listed
  waits x hx := by
    rcases List.mem_cons.mp hx with rfl | hx
    · exact fun hl => h ((hp.entered x he).mpr (Or.inl hl))
    · exact hp.waits x hx
  ordered := hp.ordered

/-- A node that waited is listed once all below it are. -/
theorem Progress.Inv.leave {pool : Pool α} {opened : List (Expr α)} {p : Progress α} {e : Expr α}
    (hp : p.Inv pool (e :: opened)) (he : e ∈ pool) (hother : e ∉ opened)
    (hbelow : ∀ a ∈ e.operands, a ∈ p.listed.toList) :
    Progress.Inv pool opened ⟨p.entered, p.listed.push e⟩ where
  entered x hx := by
    rw [hp.entered x hx, Array.toList_push, List.mem_append, List.mem_singleton, List.mem_cons,
      or_assoc]
  listed x hx := by
    rw [Array.toList_push, List.mem_append, List.mem_singleton] at hx
    rcases hx with hx | rfl
    · exact hp.listed x hx
    · exact he
  waits x hx := by
    rw [Array.toList_push, List.mem_append, List.mem_singleton]
    rintro (hl | rfl)
    · exact hp.waits x (List.mem_cons_of_mem e hx) hl
    · exact hother hx
  ordered := by
    -- the node waited while its operands were listed, so it is not listed yet
    have hout := hp.waits e List.mem_cons_self
    rw [Array.toList_push]
    refine hp.ordered.snoc hbelow ?_
    intro x hx hid
    exact hout (pool.eq_of_id x (hp.listed x hx) e he hid ▸ hx)

/-- Nodes have been visited: they are listed, and no node was taken from the list. -/
structure Progress.Visited (pool : Pool α) (opened es : List (Expr α)) (p p' : Progress α) :
    Prop where
  inv : p'.Inv pool opened
  lists : ∀ e ∈ es, e ∈ p'.listed.toList
  keeps : ∀ x ∈ p.listed.toList, x ∈ p'.listed.toList

/-- Nodes that can each be visited can be visited one after the other. -/
theorem postorderAll_visits {pool : Pool α} {opened es : List (Expr α)}
    (h : ∀ e ∈ es, ∀ {p : Progress α}, p.Inv pool opened →
      p.Visited pool opened [e] (e.postorder p)) :
    ∀ {p : Progress α}, p.Inv pool opened → p.Visited pool opened es (postorderAll p es) := by
  induction es with
  | nil => exact fun hp => ⟨hp, by simp, fun x hx => hx⟩
  | cons e es ih =>
      intro p hp
      obtain ⟨hinv, hlists, hkeeps⟩ := h e List.mem_cons_self hp
      obtain ⟨hinv', hlists', hkeeps'⟩ := ih (fun x hx => h x (List.mem_cons_of_mem e hx)) hinv
      refine ⟨hinv', List.forall_mem_cons.mpr ⟨?_, hlists'⟩, fun x hx => hkeeps' x (hkeeps x hx)⟩
      exact hkeeps' e (hlists e (List.mem_singleton_self e))

/-- A node is visited while larger ones wait. -/
theorem postorder_visits {pool : Pool α} (e : Expr α) : ∀ {opened : List (Expr α)}
    {p : Progress α}, e ∈ pool → (∀ x ∈ opened, e.size < x.size) → p.Inv pool opened →
    p.Visited pool opened [e] (e.postorder p) := by
  -- the nodes that wait are larger than the node that is visited, so they are not below it
  induction e using Expr.operand_induction with
  | h e ih =>
    intro opened p he hsize hp
    by_cases h : p.entered.contains e.id = true
    · -- an entered node does not wait, as it is smaller than those that do
      rw [Expr.postorder_of_entered h]
      refine ⟨hp, List.forall_mem_singleton.mpr ?_, fun x hx => hx⟩
      rcases (hp.entered e he).mp h with hl | ho
      · exact hl
      · exact absurd (hsize e ho) (Nat.lt_irrefl _)
    · rw [Expr.postorder_of_not_entered h]
      have hsize' : ∀ x ∈ e :: opened, e.size ≤ x.size := by
        intro x hx
        rcases List.mem_cons.mp hx with rfl | hx
        · exact Nat.le_refl _
        · exact Nat.le_of_lt (hsize x hx)
      have hbelow := postorderAll_visits (fun a ha _ hq => ih a ha (pool.operand_mem e he a ha)
        (fun x hx => Nat.lt_of_lt_of_le (Expr.size_operand_lt ha) (hsize' x hx)) hq) (hp.enter he h)
      have hother : e ∉ opened := fun ho => absurd (hsize e ho) (Nat.lt_irrefl _)
      exact ⟨hbelow.inv.leave he hother hbelow.lists, by simp,
        fun x hx => by simp [hbelow.keeps x hx]⟩

/-- Roots are visited while no node waits. -/
theorem postorderAll_roots {pool : Pool α} {roots : List (Expr α)} {p : Progress α}
    (hroots : ∀ e ∈ roots, e ∈ pool) (hp : p.Inv pool []) :
    p.Visited pool [] roots (postorderAll p roots) :=
  postorderAll_visits (fun e he _ hq => postorder_visits e (hroots e he) (by simp) hq) hp

theorem inv_start (pool : Pool α) : Progress.Inv pool [] (⟨∅, #[]⟩ : Progress α) :=
  ⟨by simp, by simp, by simp, .nil⟩

variable {pool : Pool α} {roots : List (Expr α)}

/-- **Every node stands after its operands, and no identity stands twice.** -/
theorem ordered_evaluationOrder (h : ∀ e ∈ roots, e ∈ pool) : Ordered (evaluationOrder roots) := by
  rw [evaluationOrder_eq]
  exact (postorderAll_roots h (inv_start pool)).inv.ordered

theorem Ordered.operand_mem {es : List (Expr α)} (h : Ordered es) {e a : Expr α} (he : e ∈ es)
    (ha : a ∈ e.operands) : a ∈ es := by
  induction h with
  | nil => simp at he
  | snoc _ hops _ ih =>
      rw [List.mem_append, List.mem_singleton] at he ⊢
      rcases he with he | rfl
      · exact Or.inl (ih he)
      · exact Or.inl (hops a ha)

theorem Ordered.mem_of_reaches {es : List (Expr α)} (h : Ordered es) {e x : Expr α} (he : e ∈ es)
    (hreach : e.Reaches x) : x ∈ es := by
  induction hreach with
  | self => exact he
  | through hop _ ih => exact ih (h.operand_mem he hop)

/-- **The nodes listed are those reachable from the roots.** -/
theorem mem_evaluationOrder (h : ∀ e ∈ roots, e ∈ pool) (x : Expr α) :
    x ∈ evaluationOrder roots ↔ ∃ e ∈ roots, e.Reaches x := by
  have hord := ordered_evaluationOrder h
  constructor
  · intro hx
    rw [evaluationOrder_eq] at hx
    have hreach : ∀ e ∈ roots, e ∈ pool.reachable roots :=
      fun e he => ⟨h e he, e, he, .self e⟩
    exact ((postorderAll_roots hreach (inv_start _)).inv.listed x hx).2
  · rintro ⟨e, he, hex⟩
    have hroot : e ∈ evaluationOrder roots := by
      rw [evaluationOrder_eq]
      exact (postorderAll_roots h (inv_start pool)).lists e he
    exact hord.mem_of_reaches hroot hex

theorem mem_of_mem_evaluationOrder (h : ∀ e ∈ roots, e ∈ pool) {x : Expr α}
    (hx : x ∈ evaluationOrder roots) : x ∈ pool := by
  obtain ⟨e, he, hreach⟩ := (mem_evaluationOrder h x).mp hx
  exact pool.mem_of_reaches (h e he) hreach

/-! ## Places in the order -/

theorem Ordered.nodup_ids {es : List (Expr α)} (h : Ordered es) : (es.map Expr.id).Nodup := by
  induction h with
  | nil => exact List.nodup_nil
  | snoc _ _ hnew ih =>
      rw [List.map_append, List.map_singleton, List.nodup_append]
      refine ⟨ih, by simp, ?_⟩
      intro i hi j hj
      obtain ⟨x, hx, rfl⟩ := List.mem_map.mp hi
      rw [List.mem_singleton.mp hj]
      exact hnew x hx

/-- The last node of an order is after its operands, and without it there is still an order. -/
theorem Ordered.of_snoc {es : List (Expr α)} {e : Expr α} (h : Ordered (es ++ [e])) :
    Ordered es ∧ ∀ a ∈ e.operands, a ∈ es := by
  generalize hlist : es ++ [e] = list at h
  cases h with
  | nil => simp at hlist
  | snoc hes hops _ =>
      obtain ⟨rfl, hlast⟩ := List.append_inj' hlist rfl
      rw [List.cons.injEq] at hlast
      exact ⟨hes, hlast.1 ▸ hops⟩

theorem Ordered.of_append {before after : List (Expr α)} (h : Ordered (before ++ after)) :
    Ordered before := by
  induction after generalizing before with
  | nil => rwa [List.append_nil] at h
  | cons e after ih =>
      rw [List.append_cons] at h
      exact (ih h).of_snoc.1

/-- Wherever an order is cut at a node, the operands of the node are before it. -/
theorem Ordered.operand_before {before after : List (Expr α)} {e : Expr α}
    (h : Ordered (before ++ e :: after)) : ∀ a ∈ e.operands, a ∈ before := by
  rw [List.append_cons] at h
  exact h.of_append.of_snoc.2

/-- Nodes of distinct identities are all kept. -/
theorem distinctById_eq_self {es : List (Expr α)} : ∀ {seen : Std.HashSet Nat},
    (es.map Expr.id).Nodup → (∀ e ∈ es, seen.contains e.id = false) →
    distinctById seen es = es := by
  induction es with
  | nil => exact fun _ _ => rfl
  | cons e es ih =>
      intro seen hnodup hseen
      rw [List.map_cons, List.nodup_cons] at hnodup
      rw [distinctById, hseen e List.mem_cons_self, if_neg Bool.false_ne_true]
      refine congrArg (e :: ·) (ih hnodup.2 fun x hx => ?_)
      have hne : e.id ≠ x.id := fun hid => hnodup.1 (hid ▸ List.mem_map_of_mem hx)
      rw [Std.HashSet.contains_insert, beq_false_of_ne hne, Bool.false_or]
      exact hseen x (List.mem_cons_of_mem e hx)

/-- **The free symbols are the symbols of the order.** No symbol is left out as one seen before. -/
theorem freeSymbols_eq (h : ∀ e ∈ roots, e ∈ pool) :
    freeSymbols roots = (evaluationOrder roots).filter Expr.isSymbol := by
  have hnodup := (ordered_evaluationOrder h).nodup_ids
  rw [freeSymbols]
  refine distinctById_eq_self ?_ fun _ _ => by simp
  exact hnodup.sublist ((List.filter_sublist (p := Expr.isSymbol)).map Expr.id)

theorem mem_freeSymbols (h : ∀ e ∈ roots, e ∈ pool) (x : Expr α) :
    x ∈ freeSymbols roots ↔ (∃ e ∈ roots, e.Reaches x) ∧ x.isSymbol = true := by
  rw [freeSymbols_eq h, List.mem_filter, mem_evaluationOrder h]

/-- **The traversal with a stack lists what plain recursion from left to right lists**: every node
that is reachable from the roots and no other, once, after its operands. Its symbols are the free
symbols, each once. -/
theorem evaluationOrder_postorder (h : ∀ e ∈ roots, e ∈ pool) :
    evaluationOrder roots = (postorderAll ⟨∅, #[]⟩ roots).listed.toList ∧
      ((evaluationOrder roots).map Expr.id).Nodup ∧
      (∀ x, x ∈ evaluationOrder roots ↔ ∃ e ∈ roots, e.Reaches x) ∧
      (∀ before x after, evaluationOrder roots = before ++ x :: after →
        ∀ a ∈ x.operands, a ∈ before) ∧
      freeSymbols roots = (evaluationOrder roots).filter Expr.isSymbol ∧
      ((freeSymbols roots).map Expr.id).Nodup := by
  have hordered := ordered_evaluationOrder h
  have hbefore : ∀ before x after, evaluationOrder roots = before ++ x :: after →
      ∀ a ∈ x.operands, a ∈ before :=
    fun _ _ _ hcut => (hcut ▸ hordered).operand_before
  have hfree := freeSymbols_eq h
  have hsymbols : (freeSymbols roots).Sublist (evaluationOrder roots) :=
    hfree ▸ List.filter_sublist
  exact ⟨evaluationOrder_eq roots, hordered.nodup_ids, mem_evaluationOrder h, hbefore, hfree,
    hordered.nodup_ids.sublist (hsymbols.map Expr.id)⟩

/-! A sine, and the product of which it is both factors. -/

/-- The sine of a symbol. -/
def sharedSine : Expr α := .unary 1 .sin (.symbol 0 "x")

/-- Its square. -/
def sharedSquare : Expr α := .binary 2 .mul sharedSine sharedSine

/-- These are all the nodes there are. -/
def sharedNodes : Pool α :=
  (((Pool.empty 0).growSymbol "x").grow sharedSine rfl
    (List.forall_mem_singleton.mpr (Pool.mem_grow _ _))).grow sharedSquare rfl
    (List.forall_mem_cons.mpr
      ⟨Pool.mem_grow _ _, List.forall_mem_singleton.mpr (Pool.mem_grow _ _)⟩)

theorem sharedSine_mem : (sharedSine : Expr α) ∈ sharedNodes :=
  Pool.mem_of_le (Pool.le_grow _ _) (Pool.mem_grow _ _)

theorem sharedSquare_mem : (sharedSquare : Expr α) ∈ sharedNodes := Pool.mem_grow _ _

/-- The square is asked for twice, and its factor by itself. -/
theorem evaluationOrder_postorder_shared :
    (∀ e ∈ [sharedSquare, sharedSine, sharedSquare], e ∈ (sharedNodes : Pool Float)) ∧
      evaluationOrder [sharedSquare, sharedSine, sharedSquare] =
        [(.symbol 0 "x" : Expr Float), sharedSine, sharedSquare] ∧
      freeSymbols [sharedSquare, sharedSine, sharedSquare] = [(.symbol 0 "x" : Expr Float)] := by
  have hroots : ∀ e ∈ [sharedSquare, sharedSine, sharedSquare], e ∈ (sharedNodes : Pool Float) := by
    simp [sharedSine_mem, sharedSquare_mem]
  obtain ⟨hrecursion, _, _, _, hfree, _⟩ := evaluationOrder_postorder hroots
  have horder : evaluationOrder [sharedSquare, sharedSine, sharedSquare] =
      [(.symbol 0 "x" : Expr Float), sharedSine, sharedSquare] := by
    rw [hrecursion]
    simp [sharedSquare, sharedSine, Expr.postorder, Progress.visit, Expr.id]
  refine ⟨hroots, horder, ?_⟩
  rw [hfree, horder]
  rfl

end ExplicitOde
