import ExplicitOde.Proofs.Expr.Order

/-!
# Symbols in the order of their first appearance

The leaves of a tree, from left to right, spell its symbols as often as they occur. **The free
symbols are these leaves without repetition**, each where it occurs first: `freeSymbols_leaves`.

The traversal lists a symbol where it enters it first, and it enters nodes from left to right. So
the symbols that are listed are at every moment the leaves passed so far, without repetition:
`postorder_symbols`. A node that was entered before adds nothing, since all below it is listed.
-/

namespace ExplicitOde

variable {α : Type}

namespace Expr

/-- The identity and the name of a symbol. -/
def leaf? : Expr α → Option (Nat × String)
  | symbol id name => some (id, name)
  | _ => none

/-- The symbols of a tree from left to right, as often as they occur, by identity and name. -/
def leaves : Expr α → List (Nat × String)
  | const _ _ => []
  | symbol id name => [(id, name)]
  | unary _ _ a => a.leaves
  | binary _ _ a b => a.leaves ++ b.leaves

theorem leaves_eq {e : Expr α} (h : e.leaf? = none) : e.leaves = e.operands.flatMap leaves := by
  cases e with
  | symbol => exact nomatch h
  | const => rfl
  | unary => simp [leaves, operands]
  | binary => simp [leaves, operands]

theorem eq_symbol_of_leaf? {e : Expr α} {leaf : Nat × String} (h : e.leaf? = some leaf) :
    e = .symbol leaf.1 leaf.2 := by
  cases e with
  | symbol => rw [← Option.some.inj h]
  | const | unary | binary => exact nomatch h

/-- The leaves are the symbols that are reached. -/
theorem mem_leaves {e : Expr α} {leaf : Nat × String} :
    leaf ∈ e.leaves ↔ e.Reaches (.symbol leaf.1 leaf.2) := by
  induction e using operand_induction with
  | h e ih =>
    constructor
    · intro h
      cases hleaf : e.leaf? with
      | some leaf' =>
          obtain rfl := eq_symbol_of_leaf? hleaf
          rw [leaves, List.mem_singleton] at h
          exact h ▸ .self _
      | none =>
          rw [leaves_eq hleaf, List.mem_flatMap] at h
          obtain ⟨a, ha, h⟩ := h
          exact .through ha ((ih a ha).mp h)
    · rintro (_ | ⟨ha, h⟩)
      · exact List.mem_singleton_self _
      · have hleaf : e.leaf? = none := by
          cases e with
          | symbol => exact absurd ha List.not_mem_nil
          | const | unary | binary => rfl
        rw [leaves_eq hleaf]
        exact List.mem_flatMap.mpr ⟨_, ha, (ih _ ha).mpr h⟩

end Expr

section

variable {β : Type} [BEq β] [LawfulBEq β] {as bs : List β} {b : β}

/-- What occurred before adds nothing. -/
theorem eraseDups_append_of_subset (h : ∀ b ∈ bs, b ∈ as) :
    (as ++ bs).eraseDups = as.eraseDups := by
  have hnone : bs.removeAll as = [] := by
    rw [List.removeAll, List.filter_eq_nil_iff]
    intro b hb
    simpa using h b hb
  rw [List.eraseDups_append, hnone, List.eraseDups_nil, List.append_nil]

/-- What is new is added at the end. -/
theorem eraseDups_concat_of_not_mem (h : b ∉ as) :
    (as ++ [b]).eraseDups = as.eraseDups ++ [b] := by
  have hall : [b].removeAll as = [b] := by
    rw [List.removeAll, List.filter_eq_self]
    simpa using h
  rw [List.eraseDups_append, hall, List.eraseDups_cons, List.filter_nil, List.eraseDups_nil]

end

/-- The symbols that are listed. -/
def Progress.symbols (p : Progress α) : List (Nat × String) := p.listed.toList.filterMap Expr.leaf?

section

variable {pool : Pool α} {roots : List (Expr α)}

/-- The leaves of a node that is listed are listed. -/
theorem Progress.Inv.leaves_subset {opened : List (Expr α)} {p : Progress α} {e : Expr α}
    (hp : p.Inv pool opened) (he : e ∈ p.listed.toList) : ∀ leaf ∈ e.leaves, leaf ∈ p.symbols := by
  intro leaf hleaf
  exact List.mem_filterMap.mpr ⟨_, hp.ordered.mem_of_reaches he (Expr.mem_leaves.mp hleaf), rfl⟩

/-- Nodes that each add their leaves add them one after the other. -/
theorem postorderAll_symbols {opened es : List (Expr α)}
    (hes : ∀ e ∈ es, e ∈ pool ∧ ∀ x ∈ opened, e.size < x.size)
    (h : ∀ e ∈ es, ∀ {p : Progress α} {ls : List (Nat × String)}, p.Inv pool opened →
      p.symbols = ls.eraseDups → (e.postorder p).symbols = (ls ++ e.leaves).eraseDups) :
    ∀ {p : Progress α} {ls : List (Nat × String)}, p.Inv pool opened →
      p.symbols = ls.eraseDups →
      (postorderAll p es).symbols = (ls ++ es.flatMap Expr.leaves).eraseDups := by
  induction es with
  | nil =>
      intro p ls _ hls
      rwa [postorderAll_nil, List.flatMap_nil, List.append_nil]
  | cons e es ih =>
      intro p ls hp hls
      obtain ⟨hpool, hsize⟩ := hes e List.mem_cons_self
      rw [postorderAll_cons, List.flatMap_cons, ← List.append_assoc]
      exact ih (fun x hx => hes x (List.mem_cons_of_mem e hx))
        (fun x hx => h x (List.mem_cons_of_mem e hx)) (postorder_visits e hpool hsize hp).inv
        (h e List.mem_cons_self hp hls)

/-- **The symbols that are listed are the leaves passed, without repetition.** -/
theorem postorder_symbols (e : Expr α) : ∀ {opened : List (Expr α)} {p : Progress α}
    {ls : List (Nat × String)}, e ∈ pool → (∀ x ∈ opened, e.size < x.size) → p.Inv pool opened →
    p.symbols = ls.eraseDups → (e.postorder p).symbols = (ls ++ e.leaves).eraseDups := by
  induction e using Expr.operand_induction with
  | h e ih =>
    intro opened p ls he hsize hp hls
    by_cases h : p.entered.contains e.id = true
    · rw [Expr.postorder_of_entered h]
      have hlisted : e ∈ p.listed.toList :=
        ((hp.entered e he).mp h).resolve_right fun ho => absurd (hsize e ho) (Nat.lt_irrefl _)
      have hsubset : ∀ leaf ∈ e.leaves, leaf ∈ ls := by
        intro leaf hleaf
        rw [← List.mem_eraseDups, ← hls]
        exact hp.leaves_subset hlisted leaf hleaf
      rw [eraseDups_append_of_subset hsubset, hls]
    rw [Expr.postorder_of_not_entered h]
    cases hleaf : e.leaf? with
    | some leaf =>
        -- the symbol was not passed before, because then it would be entered
        have hnew : leaf ∉ ls := by
          intro hmem
          rw [← List.mem_eraseDups, ← hls] at hmem
          obtain ⟨x, hx, hxleaf⟩ := List.mem_filterMap.mp hmem
          obtain rfl := (Expr.eq_symbol_of_leaf? hxleaf).trans (Expr.eq_symbol_of_leaf? hleaf).symm
          exact h ((hp.entered x he).mpr (Or.inl hx))
        obtain rfl := Expr.eq_symbol_of_leaf? hleaf
        rw [Expr.leaves, eraseDups_concat_of_not_mem hnew, ← hls]
        simp [Progress.symbols, Expr.operands, Expr.leaf?]
    | none =>
        have hes : ∀ a ∈ e.operands, a ∈ pool ∧ ∀ x ∈ e :: opened, a.size < x.size := by
          intro a ha
          have hlt := Expr.size_operand_lt ha
          exact ⟨pool.operand_mem e he a ha, List.forall_mem_cons.mpr
            ⟨hlt, fun x hx => Nat.lt_trans hlt (hsize x hx)⟩⟩
        have hbelow := postorderAll_symbols hes
          (fun a ha _ _ hq => ih a ha (hes a ha).1 (hes a ha).2 hq) (hp.enter he h) hls
        rw [Expr.leaves_eq hleaf, ← hbelow]
        simp [Progress.symbols, hleaf]

/-- **The free symbols are the leaves of the roots, each where it occurs first.** -/
theorem freeSymbols_leaves (h : ∀ e ∈ roots, e ∈ pool) :
    (freeSymbols roots).filterMap Expr.leaf? = (roots.flatMap Expr.leaves).eraseDups := by
  have hsymbols : (postorderAll ⟨∅, #[]⟩ roots).symbols =
      ([] ++ roots.flatMap Expr.leaves).eraseDups :=
    postorderAll_symbols (fun e he => ⟨h e he, by simp⟩)
      (fun e he _ _ hp => postorder_symbols e (h e he) (by simp) hp) (inv_start pool) rfl
  have hleaf : ∀ e : Expr α, (if e.isSymbol = true then e.leaf? else none) = e.leaf? := by
    intro e
    cases e <;> rfl
  rw [freeSymbols_eq h, evaluationOrder_eq, List.filterMap_filter, List.filterMap_congr
    fun e _ => hleaf e]
  exact hsymbols

end

end ExplicitOde
