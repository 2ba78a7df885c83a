import ExplicitOde.Proofs.Derivative.Transpose
import ExplicitOde.Proofs.Expr.Closure

/-!
# Derivatives are over the symbols of what they are made from

Partial derivatives, tangents and weights are built from the nodes of an expression and from those
of a seed, so derivatives have no other symbols.
-/

namespace ExplicitOde

open ExplicitOde.Expr

variable {α : Type} [Scalar α] {P : Nat → Prop}

/-! ## Partial derivatives -/

theorem over_arcPartial {a : Expr α} (ha : a.Over P) : Always (arcPartial a) (Over P) := by
  rw [arcPartial]
  refine (over_mkMul ha ha).bind fun square hsquare => ?_
  refine (over_mkOne P).bind fun one hone => ?_
  refine (over_mkSub hone hsquare).bind fun rest hrest => ?_
  refine (over_mkUnary .sqrt hrest).bind fun root hroot => ?_
  exact (over_mkOne P).bind fun one hone => over_mkDiv hone hroot

theorem over_unaryPartial {op : UnaryOp} {node a : Expr α} (hnode : node.Over P) (ha : a.Over P) :
    Always (unaryPartial op node a) (Over P) := by
  cases op with
  | neg => exact over_mkConst P _
  | sin => exact over_mkUnary .cos ha
  | cos => exact (over_mkUnary .sin ha).bind fun s hs => over_mkNeg hs
  | tan =>
      refine (over_mkUnary .cos ha).bind fun c hc => ?_
      exact (over_mkOne P).bind fun one hone => (over_mkMul hc hc).bind fun _ h => over_mkDiv hone h
  | asin => exact over_arcPartial ha
  | acos => exact (over_arcPartial ha).bind fun d hd => over_mkNeg hd
  | atan =>
      refine (over_mkOne P).bind fun one hone => (over_mkOne P).bind fun one' hone' => ?_
      refine (over_mkMul ha ha).bind fun square hsquare => ?_
      exact (over_mkAdd hone' hsquare).bind fun sum hsum => over_mkDiv hone hsum
  | sinh => exact over_mkUnary .cosh ha
  | cosh => exact over_mkUnary .sinh ha
  | tanh =>
      refine (over_mkOne P).bind fun one hone => ?_
      exact (over_mkMul hnode hnode).bind fun square hsquare => over_mkSub hone hsquare
  | exp => exact Always.pure hnode
  | log => exact (over_mkOne P).bind fun one hone => over_mkDiv hone ha
  | sqrt => exact (over_mkConst P _).bind fun half hhalf => over_mkDiv hhalf hnode

theorem over_leftPartial {op : BinaryOp} {a b : Expr α} (ha : a.Over P) (hb : b.Over P) :
    Always (leftPartial op a b) (Over P) := by
  cases op with
  | add => exact over_mkOne P
  | sub => exact over_mkOne P
  | mul => exact Always.pure hb
  | div => exact (over_mkOne P).bind fun one hone => over_mkDiv hone hb
  | pow =>
      refine (over_mkOne P).bind fun one hone => (over_mkSub hb hone).bind fun less hless => ?_
      exact (over_mkBinary .pow ha hless).bind fun power hpower => over_mkMul hb hpower

theorem over_rightPartial {op : BinaryOp} {node a b : Expr α} (hnode : node.Over P) (ha : a.Over P)
    (hb : b.Over P) : Always (rightPartial op node a b) (Over P) := by
  cases op with
  | add => exact over_mkOne P
  | sub => exact over_mkConst P _
  | mul => exact Always.pure ha
  | div => exact (over_mkDiv hnode hb).bind fun quotient h => over_mkNeg h
  | pow => exact (over_mkUnary .log ha).bind fun l hl => over_mkMul hnode hl

theorem over_partials {e : Expr α} (he : e.Over P) : ∀ p ∈ e.partials, Always p.2 (Over P) := by
  cases e with
  | const | symbol => exact fun p hp => absurd hp List.not_mem_nil
  | unary id op a =>
      exact List.forall_mem_singleton.mpr (over_unaryPartial he he)
  | binary id op a b =>
      exact List.forall_mem_cons.mpr ⟨over_leftPartial he.1 he.2,
        List.forall_mem_singleton.mpr (over_rightPartial he he.1 he.2)⟩

/-! ## Tangents -/

/-- All entries of a table are over some symbols. -/
def TableOver (P : Nat → Prop) (table : ExprTable α) : Prop :=
  ∀ (id : Nat) (t : Expr α), table[id]? = some t → t.Over P

omit [Scalar α] in
/-- What holds of all entries and of a new one holds with the new one. -/
theorem forall_getElem?_insert {Q : Nat → Expr α → Prop} {table : ExprTable α}
    (h : ∀ (i : Nat) (t : Expr α), table[i]? = some t → Q i t) {id : Nat} {t : Expr α}
    (ht : Q id t) : ∀ (i : Nat) (t' : Expr α), (table.insert id t)[i]? = some t' → Q i t' := by
  intro i t' hget
  rw [Std.HashMap.getElem?_insert] at hget
  by_cases hid : id = i
  · rw [if_pos (beq_iff_eq.mpr hid)] at hget
    injection hget with hget
    exact hid ▸ hget ▸ ht
  · rw [if_neg (mt beq_iff_eq.mp hid)] at hget
    exact h i t' hget

omit [Scalar α] in
theorem TableOver.insert {table : ExprTable α} (h : TableOver P table) (id : Nat) {t : Expr α}
    (ht : t.Over P) : TableOver P (table.insert id t) :=
  forall_getElem?_insert h ht

omit [Scalar α] in
theorem tableOver_empty : TableOver P (∅ : ExprTable α) := by
  intro i t hget
  simp at hget

omit [Scalar α] in
/-- The entries of a direction are those of the seed. -/
theorem tableOver_directionOf {symbols : List Nat} {seed : List (Expr α)}
    (h : ∀ t ∈ seed, t.Over P) : TableOver P (directionOf symbols seed) := by
  have hall : ∀ (pairs : List (Nat × Expr α)) (table : ExprTable α), (∀ p ∈ pairs, p.2.Over P) →
      TableOver P table → TableOver P (table.insertMany pairs) := by
    intro pairs
    induction pairs with
    | nil => exact fun table _ htable => by rwa [Std.HashMap.insertMany_nil]
    | cons p pairs ih =>
        intro table hpairs htable
        rw [Std.HashMap.insertMany_cons]
        exact ih _ (fun q hq => hpairs q (List.mem_cons_of_mem p hq))
          (htable.insert p.1 (hpairs p List.mem_cons_self))
  rw [directionOf, Std.HashMap.ofList_eq_insertMany_empty]
  exact hall _ ∅ (fun p hp => h p.2 (List.of_mem_zip hp).2) tableOver_empty

theorem over_tangentOf {direction table : ExprTable α} (hdirection : TableOver P direction)
    (htable : TableOver P table) {e : Expr α} (he : e.Over P) :
    Always (tangentOf direction table e) (Over P) := by
  have hfold : Always (do e.partials.foldlM (addTangent table) (← mkZero)) (Over P) := by
    refine (over_mkZero P).bind fun zero hzero => Always.foldlM hzero fun sum hsum p hp => ?_
    rw [addTangent]
    split
    · exact Always.pure hsum
    · rename_i t ht
      split
      · exact Always.pure hsum
      · refine (over_partials he p hp).bind fun part hpart => ?_
        exact (over_mkMul hpart (htable _ t ht)).bind fun product h => over_mkAdd hsum h
  cases e with
  | const => exact over_mkZero P
  | symbol id name =>
      rw [tangentOf]
      split
      · rename_i t ht
        exact Always.pure (hdirection id t ht)
      · exact over_mkZero P
  | unary | binary => exact hfold

theorem over_tangents {order roots : List (Expr α)} {direction : ExprTable α}
    (horder : ∀ e ∈ order, e.Over P) (hdirection : TableOver P direction) :
    Always (tangents order roots direction) fun ts => ∀ t ∈ ts, t.Over P := by
  have htable : Always (tangentTable direction order) (TableOver P) := by
    refine Always.foldlM tableOver_empty fun table htable e he => ?_
    exact (over_tangentOf hdirection htable (horder e he)).bind fun t ht =>
      Always.pure (htable.insert e.id ht)
  refine htable.bind fun table htable => Always.mapM fun root _ => ?_
  rw [rootTangent]
  split
  · rename_i t ht
    exact Always.pure (htable root.id t ht)
  · exact over_mkZero P

/-! ## Weights -/

theorem over_addWeight {table : ExprTable α} (htable : TableOver P table) (id : Nat)
    {amount : Expr α} (hamount : amount.Over P) :
    Always (addWeight table id amount) (TableOver P) := by
  have hadd : ∀ sofar : Expr α, sofar.Over P →
      Always (do return table.insert id (← mkAdd sofar amount)) (TableOver P) := fun sofar hsofar =>
    (over_mkAdd hsofar hamount).bind fun sum hsum => Always.pure (htable.insert id hsum)
  rw [addWeight]
  cases hget : table[id]? with
  | some weight => exact (Always.pure (htable id weight hget)).bind hadd
  | none => exact (over_mkZero P).bind hadd

/-- The weights of nodes and those of symbols are over some symbols. -/
def WeightsOver (P : Nat → Prop) (weights : Weights α) : Prop :=
  TableOver P weights.nodes ∧ TableOver P weights.symbols

theorem over_visitWeight {weights : Weights α} (h : WeightsOver P weights) {e : Expr α}
    (he : e.Over P) : Always (visitWeight weights e) (WeightsOver P) := by
  rw [visitWeight]
  split
  · exact Always.pure h
  · rename_i weight hweight
    have hw := h.1 _ weight hweight
    have hfold : Always (do
        return { weights with nodes := ← e.partials.foldlM (passWeight weight) weights.nodes })
        (WeightsOver P) := by
      refine Always.bind (P := TableOver P) (Always.foldlM h.1 fun table htable p hp => ?_)
        fun nodes hnodes => Always.pure ⟨hnodes, h.2⟩
      rw [passWeight]
      refine (over_partials he p hp).bind fun part hpart => ?_
      exact (over_mkMul hw hpart).bind fun amount hamount => over_addWeight htable _ hamount
    split
    · exact Always.pure h
    · cases e with
      | const => exact Always.pure h
      | symbol id name =>
          exact (over_addWeight h.2 id hw).bind fun symbols hsymbols => Always.pure ⟨h.1, hsymbols⟩
      | unary | binary => exact hfold

theorem over_reverseColumn {roots seed : List (Expr α)} {symbols : List Nat}
    (hroots : ∀ e ∈ roots, e.Over P) (hseed : ∀ e ∈ seed, e.Over P) :
    Always (reverseColumn roots seed symbols) fun ws => ∀ w ∈ ws, w.Over P := by
  have hstart : Always (rootWeights roots seed) (TableOver P) := by
    refine Always.foldlM tableOver_empty fun table htable p hp => ?_
    obtain ⟨root, weight⟩ := p
    dsimp only
    split
    · exact Always.pure htable
    · exact over_addWeight htable root.id (hseed weight (List.of_mem_zip hp).2)
  have horder := over_evaluationOrder hroots
  have hfinal : Always (symbolWeights (evaluationOrder roots) roots seed) (TableOver P) := by
    refine hstart.bind fun start hstart => ?_
    refine Always.bind (P := WeightsOver P) (Always.foldlM ⟨hstart, tableOver_empty⟩
      fun weights h e he => ?_) fun weights h => Always.pure h.2
    exact over_visitWeight h (horder e (List.mem_reverse.mp he))
  refine hfinal.bind fun table htable => Always.mapM fun id _ => ?_
  rw [symbolWeight]
  split
  · rename_i weight hweight
    exact Always.pure (htable id weight hweight)
  · exact over_mkZero P

end ExplicitOde
