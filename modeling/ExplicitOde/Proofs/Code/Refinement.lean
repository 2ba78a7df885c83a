import ExplicitOde.Proofs.Code.Metadata
import ExplicitOde.Proofs.Code.Run
import ExplicitOde.Proofs.Function.Exact

/-!
# Generated code computes what a call computes

The generated source has a function with the kernel in it, and read as a unit, it defines the kernel
by the same statements. Whatever blocks its arguments point to, and whichever pointers are null, the
kernel writes to every block that it is given the values that a call has for the output, all of them
once and in order. A null argument counts as zeros, and nothing is written for a null result.

Nothing is known of numbers but that constants and operations mean the same in C as in the call.
-/

namespace ExplicitOde

open C Kernel SymbolicFunction

namespace Code

variable {α β : Type}

/-! ## Memory for a function -/

/-- There is a pointer for every input and output, and the blocks are as long as these. -/
structure Serves (memory : Memory β) (f : SymbolicFunction α) : Prop where
  arg : List.Forall₂ (fun (input : ExprMatrix α) block =>
    ∀ cells, block = some cells → cells.length = input.numel) f.inputs memory.arg
  res : List.Forall₂ (fun (output : ExprMatrix α) target =>
    ∀ size, target = some size → size = output.numel) f.outputs memory.res

/-- The argument that a pointer stands for: what is in the block, or zeros. -/
def argument (meaning : Meaning β) (input : ExprMatrix α) (block : Option (List β)) : Grid β :=
  ⟨input.rows, input.cols, block.getD (List.replicate input.numel (meaning.ofNat 0))⟩

/-- All that is written for the values of the outputs. -/
def allWrites (targets : List (Option Nat)) (outs : List (Grid β)) : List (Write β) :=
  (targets.zip outs).zipIdx.flatMap fun ((target, out), o) => blockWrites o target out.cells

variable {f : SymbolicFunction α} {memory : Memory β} {meaning : Meaning β} {σ : Nat → β}

/-- The arguments that pointers stand for have as many values as the inputs. -/
theorem Serves.numel (h : Serves memory f) :
    List.Forall₂ (fun input arg => input.numel = arg.numel) f.inputs
      (List.zipWith (argument meaning) f.inputs memory.arg) := by
  have hblocks := h.arg
  generalize f.inputs = inputs, memory.arg = blocks at hblocks
  induction hblocks with
  | nil => exact .nil
  | @cons input block _ _ hblock _ ih =>
      refine .cons ?_ ih
      cases block with
      | some cells => exact (hblock cells rfl).symm
      | none => exact List.length_replicate.symm

/-- Where the symbols have these values, a place in an argument delivers the value of its symbol. -/
theorem Serves.delivers (h : Serves memory f) (hf : Accepted f.inputs f.outputs)
    (hσ : List.Forall₂ (Gives σ) f.inputs (List.zipWith (argument meaning) f.inputs memory.arg))
    {id input element : Nat} (hid : id ∈ (inputElements f.inputs).map Expr.id)
    (hplace : (places f.inputs)[id]? = some (input, element)) :
    Delivers meaning memory input element (σ id) := by
  obtain ⟨i, k, m, e, hi, hk, rfl, hfound⟩ := exists_place hf hid
  -- a symbol is at one place only
  rw [hfound] at hplace
  obtain ⟨rfl, rfl⟩ := Prod.mk.inj (Option.some.inj hplace)
  obtain ⟨block, hblock, _⟩ := Grid.forall₂_getElem? h.arg hi
  obtain ⟨arg, harg, hgives⟩ := Grid.forall₂_getElem? hσ hi
  rw [List.getElem?_zipWith, hi, hblock] at harg
  obtain rfl := Option.some.inj harg
  have hcell : (argument meaning m block).cells[k]? = some (σ e.id) := by
    rw [← (hgives : _ = (argument meaning m block).cells), List.getElem?_map, hk]
    rfl
  refine ⟨block, hblock, ?_⟩
  cases block with
  | some cells => exact hcell
  | none =>
      have hmem : σ e.id ∈ List.replicate m.numel (meaning.ofNat 0) := List.mem_of_getElem? hcell
      exact List.eq_of_mem_replicate hmem

/-! ## Runs of kernels -/

variable [Written α] [LawfulWritten α] {floats : FloatWidth} {constants : α → Prop}
  {interpretation : Interpretation α β} {locals : Locals β}

/-- The blocks of all outputs write their elements, one after the other. -/
theorem Agrees.steps_results (h : Agrees floats constants meaning interpretation)
    {nodes : List (Expr α)}
    (hlocals : SlotValues nodes.length (nodes.map (Expr.value interpretation σ)) locals)
    {results : List (List (Operand α))} {outputs : List (ExprMatrix α)}
    {targets : List (Option Nat)}
    (hresults : List.Forall₂ (fun operands m => List.Forall₂ (Stands nodes) operands m.elements)
      results outputs)
    (hsizes : List.Forall₂ (fun (output : ExprMatrix α) target =>
      ∀ size, target = some size → size = output.numel) outputs targets)
    (hconstants : ∀ m ∈ outputs, ∀ e ∈ m.elements, ∀ id v, e = .const id v → constants v) :
    ∀ (n : Nat) (writes : List (Write β)), (∀ k, memory.res[n + k]? = targets[k]?) →
      steps meaning memory ⟨locals, writes⟩
          ((results.zipIdx n).flatMap fun (operands, o) => resultStmts floats o operands) =
        some ⟨locals, writes ++ ((targets.zip (outputs.map fun m =>
          m.grid.map (Expr.value interpretation σ))).zipIdx n).flatMap
            fun ((target, out), o) => blockWrites o target out.cells⟩ := by
  -- the outputs from number `n` on have the pointers from number `n` on
  induction hresults generalizing targets with
  | nil =>
      intro n writes _
      cases hsizes
      exact congrArg some (congrArg (State.mk locals) (List.append_nil writes).symm)
  | @cons operands m results outputs hstands _ ih =>
      intro n writes hres
      cases hsizes with
      | @cons _ target _ targets hsize hsizes =>
          have htarget : memory.res[n]? = some target := hres 0
          have hone := h.steps_result hlocals htarget (fun size hsome => (hsize size hsome).ge)
            hstands (hconstants m List.mem_cons_self) writes
          have hrest := ih hsizes (fun m' hm' => hconstants m' (List.mem_cons_of_mem m hm')) (n + 1)
            (writes ++ blockWrites n target (m.elements.map (Expr.value interpretation σ)))
            fun k => by rw [Nat.add_assoc, Nat.add_comm 1 k]; exact hres (k + 1)
          rw [List.zipIdx_cons, List.flatMap_cons]
          refine (steps_append hone).trans (hrest.trans ?_)
          rw [List.append_assoc]
          rfl

/-- The constants that are emitted for a function. -/
def HasConstant (f : SymbolicFunction α) (v : α) : Prop :=
  ∃ root ∈ outputElements f.outputs, ∃ id, root.Reaches (.const id v)

/-- **A kernel writes the values of the outputs** where the symbols have the values that the
pointers stand for, and it returns zero. -/
theorem Agrees.runBody (h : Agrees floats (HasConstant f) meaning interpretation)
    (hf : Accepted f.inputs f.outputs) (hmemory : Serves memory f)
    (hσ : List.Forall₂ (Gives σ) f.inputs (List.zipWith (argument meaning) f.inputs memory.arg))
    {kernel : Kernel α} {nodes : List (Expr α)} (hkernel : KernelOf f nodes kernel) :
    C.runBody meaning memory (bodyStmts floats kernel) =
      some (allWrites memory.res (f.outputs.map fun m =>
        m.grid.map (Expr.value interpretation σ)), 0) := by
  have hknown : ∀ e ∈ nodes, Known (places f.inputs) (HasConstant f) meaning memory σ e := by
    intro e he
    obtain ⟨root, hroot, hreach⟩ := hkernel.below e he
    refine ⟨fun a ha id v hconst => ?_, fun id name input element hsymbol hplace => ?_⟩
    -- what is below an output is emitted, and a symbol there is one of an input
    · exact ⟨root, hroot, id, hconst ▸ hreach.operand ha⟩
    · subst hsymbol
      exact hmemory.delivers hf hσ (hf.closed root hroot _ hreach rfl) hplace
  obtain ⟨declared, hdeclarations, hdeclared⟩ :=
    steps_declarations meaning memory [] kernel.slots.length
  obtain ⟨assigned, hslots, hassigned⟩ := h.steps_slots hkernel.slots hknown hdeclared []
    kernel.slots.length (Nat.le_refl _)
  rw [List.take_length] at hslots
  rw [hkernel.size, List.take_length] at hassigned
  have hresults := h.steps_results hassigned hkernel.results hmemory.res
    (fun m hm e he id v hconst =>
      ⟨e, List.mem_flatMap.mpr ⟨m, hm, he⟩, id, hconst ▸ .self e⟩) 0 []
    fun k => by rw [Nat.zero_add]
  have hsteps := (steps_append hdeclarations).trans ((steps_append hslots).trans hresults)
  rw [← List.append_assoc] at hsteps
  rw [C.runBody, bodyStmts]
  exact (run_append hsteps).trans (by rw [run, eval_integer]; rfl)

/-! ## Generated sources -/

/-- In the unit of a source, the body of the kernel is that of the definition of its name. -/
theorem exists_unit (options : CodeOptions) (kernel : Kernel α)
    (hname : isIdentifier f.name = true) :
    ∃ unit pieces, readUnit (textOfLines (sourceLines options f kernel)) = some unit ∧
      unit.body? kernelName = some pieces ∧
      readStatements realType pieces = some (bodyStmts options.floats kernel) :=
  ⟨_, _, readUnit_source options kernel hname, body?_kernel options.floats f kernel,
    (kernelBody_ok options.floats kernel).2.2⟩

/-- **Generated code refines calls.** For every accepted function and all options, the source has a
function with a body that is read as the kernel that is meant, and if the name is an identifier,
then this is what the unit of the source defines as the kernel. Whatever constants and operations
mean, if they mean the same in C and in a call, the body runs to its end and writes, for whatever
pointers it is given, exactly the values that the call has where null arguments are zeros. -/
theorem generateCode_refines {pool : Pool α} {name : String} {inputs outputs : List (ExprMatrix α)}
    {options : CodeOptions} {code : GeneratedCode}
    (hpool : ∀ e ∈ outputElements outputs, e ∈ pool)
    (hf : SymbolicFunction.make name inputs outputs = .ok f)
    (hcode : generateCode options f = .ok code) :
    ∃ kernel nodes before body after, KernelOf f nodes kernel ∧
      code.source = before ++ "static " ++ evaluationHead kernelName ++ " \x7b\n" ++ body ++
        "\x7d\n" ++ after ∧
      C.read realType body = some (bodyStmts options.floats kernel) ∧
      (isIdentifier name = true → ∃ unit pieces, readUnit code.source = some unit ∧
        unit.body? kernelName = some pieces ∧
        readStatements realType pieces = some (bodyStmts options.floats kernel)) ∧
      ∀ {β : Type} {meaning : Meaning β} {interpretation : Interpretation α β},
        Agrees options.floats (HasConstant f) meaning interpretation →
        ∀ memory, Serves memory f → ∃ outs,
          f.call interpretation (List.zipWith (argument meaning) f.inputs memory.arg) = .ok outs ∧
          C.runBody meaning memory (bodyStmts options.floats kernel) =
            some (allWrites memory.res outs, 0) := by
  obtain ⟨rfl, rfl, rfl, haccepted⟩ := make_ok hpool hf
  obtain ⟨kernel, nodes, hrun, hkernel⟩ := exists_kernelOf hpool haccepted
  obtain ⟨before, after, htext⟩ := source_eq options f kernel
  have hsource := source_of_ok hcode hrun
  refine ⟨kernel, nodes, before, _, after, hkernel, hsource.trans htext,
    read_body options.floats kernel, fun hname => ?_, ?_⟩
  · rw [hsource]
    exact exists_unit options kernel hname
  · intro β meaning interpretation hagrees memory hmemory
    have : Inhabited β := ⟨meaning.ofNat 0⟩
    obtain ⟨σ, hσ⟩ := exists_gives haccepted.distinct hmemory.numel
    exact ⟨_, call_eq hpool haccepted hσ, hagrees.runBody haccepted hmemory hσ hkernel⟩

/-- These are all the nodes there are. -/
def squarePool : Pool Float :=
  ((Pool.empty 0).grow (.symbol 0 "x") rfl (by simp [Expr.operands])).grow squared rfl
    (List.forall_mem_cons.mpr
      ⟨Pool.mem_grow _ _, List.forall_mem_singleton.mpr (Pool.mem_grow _ _)⟩)

/-- Rational arithmetic. -/
def rational : Meaning ℚ where
  constant _ := 0
  macroValue _ := 0
  ofNat n := n
  neg v := -v
  arithmetic sign v w :=
    match sign with
    | '+' => v + w
    | '-' => v - w
    | '*' => v * w
    | _ => v / w
  function _ _ := 0

/-- The kernel that is defined in the source, at three, and without argument and result. -/
theorem generateCode_refines_square :
    ∃ (code : GeneratedCode) (unit : TranslationUnit) (stmts : List Stmt),
      generateCode {} square = .ok code ∧ readUnit code.source = some unit ∧
      (unit.body? kernelName).bind (readStatements realType) = some stmts ∧
      C.runBody rational ⟨[some [3]], [some 1]⟩ stmts = some ([⟨0, 0, 9⟩], 0) ∧
      C.runBody rational ⟨[none], [none]⟩ stmts = some ([], 0) := by
  obtain ⟨kernel, hkernel⟩ := exists_ofFunction square_accepted
  have hmake : SymbolicFunction.make square.name square.inputs square.outputs = .ok square :=
    make_of_accepted rfl square_accepted
  have hpool : ∀ e ∈ outputElements square.outputs, e ∈ squarePool :=
    List.forall_mem_singleton.mpr (Pool.mem_grow _ _)
  have hcode := generateCode_eq (rfl : CodeOptions.check {} = .ok ()) hkernel
  obtain ⟨kernel, _, _, _, _, _, _, _, hdefined, hrun⟩ := generateCode_refines hpool hmake hcode
  obtain ⟨unit, pieces, hunit, hbody, hread⟩ := hdefined (by decide)
  have hstmts : (unit.body? kernelName).bind (readStatements realType) =
      some (bodyStmts .double kernel) := by
    rw [hbody]
    exact hread
  have hagrees := agrees_interpretationOf .double (HasConstant square) rational
  refine ⟨_, unit, _, hcode, hunit, hstmts, ?_, ?_⟩
  · obtain ⟨outs, hcall, hbody⟩ := hrun hagrees ⟨[some [3]], [some 1]⟩
      ⟨.cons (fun _ h => Option.some.inj h ▸ rfl) .nil,
        .cons (fun _ h => Option.some.inj h ▸ rfl) .nil⟩
    have hvalues : List.Forall₂ (Gives fun _ => (3 : ℚ)) square.inputs
        (List.zipWith (argument rational) square.inputs [some [3]]) := .cons rfl .nil
    obtain rfl := Except.ok.inj (hcall.symm.trans (call_eq hpool square_accepted hvalues))
    have hproduct : (9 : ℚ) = 3 * 3 := by norm_num
    rw [hbody, hproduct]
    rfl
  · obtain ⟨outs, _, hbody⟩ := hrun hagrees ⟨[none], [none]⟩
      ⟨.cons (by simp) .nil, .cons (by simp) .nil⟩
    rw [hbody, allWrites]
    cases outs <;> rfl

end Code

end ExplicitOde
