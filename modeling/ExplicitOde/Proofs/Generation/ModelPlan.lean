import ExplicitOde.Proofs.Code.Renaming
import ExplicitOde.Proofs.Generation.Emission
import ExplicitOde.Proofs.Model.Accepted
import ExplicitOde.Proofs.Model.Generation

/-!
# The plan of a model

The files of a model are named after its functions, so that no two of them have one name and none
can leave the directory. They are written in an order that is fixed: the functions for the value,
the forward, the adjoint and the second-order sensitivities, of each the source before the header.
**A run keeps to this order**: `emit_ofCodes`.

**Whether there is code at all is clear before the first file**: the options decide it for all
functions alike, so that either there is a plan or no file is written.

Models that are alike, such as a model and the same built again, have one plan.
-/

namespace ExplicitOde

open Relator (BiUnique)
open ExplicitOde.Expr SymbolicFunction

variable {α : Type}

/-! ## Names of files -/

/-- What the names of the files of a model end in, in the order of writing. -/
def fileEndings (header : Bool) : List String :=
  if header then
    ["_expl_ode_fun.c", "_expl_ode_fun.h", "_expl_vde_forw.c", "_expl_vde_forw.h",
      "_expl_vde_adj.c", "_expl_vde_adj.h", "_expl_ode_hess.c", "_expl_ode_hess.h"]
  else
    ["_expl_ode_fun.c", "_expl_vde_forw.c", "_expl_vde_adj.c", "_expl_ode_hess.c"]

/-- The names of the files of a model, in the order of writing. -/
def fileNames (options : CodeOptions) (model : String) : List String :=
  (fileEndings options.header).map (model ++ ·)

theorem nodup_fileEndings : ∀ header, (fileEndings header).Nodup := by decide

theorem noSlash_fileEndings : ∀ header, ∀ ending ∈ fileEndings header, '/' ∉ ending.toList := by
  decide

/-- **No two files of a model have one name.** -/
theorem nodup_fileNames (options : CodeOptions) (model : String) :
    (fileNames options model).Nodup := by
  refine (nodup_fileEndings options.header).map fun a b h => ?_
  have htoList := congrArg String.toList h
  simp only [String.toList_append] at htoList
  exact String.toList_inj.mp (List.append_cancel_left htoList)

theorem isEntryName_of_mem_fileNames {options : CodeOptions} {model name : String}
    (hmodel : isIdentifier model = true) (h : name ∈ fileNames options model) :
    IsEntryName name := by
  obtain ⟨ending, hending, rfl⟩ := List.mem_map.mp h
  exact isEntryName_append hmodel (noSlash_fileEndings _ ending hending)

/-! ## The plan -/

/-- The code of a function has the name of the function, and a header if one is wanted. -/
theorem generateCode_ok [Written α] {options : CodeOptions} {f : SymbolicFunction α}
    {code : GeneratedCode} (h : generateCode options f = .ok code) :
    code.name = f.name ∧ code.header.isSome = options.header := by
  obtain ⟨_, _, h⟩ := bind_eq_ok_iff.mp h
  obtain ⟨_, _, h⟩ := bind_eq_ok_iff.mp h
  injection h with h
  subst h
  refine ⟨rfl, ?_⟩
  cases hheader : options.header <;> simp

/-- The files of a function under a name: the source, and then the header if there is one. -/
def functionFiles (name : String) (code : GeneratedCode) : List (String × String) :=
  (name ++ ".c", code.source) :: (code.header.map fun text => (name ++ ".h", text)).toList

theorem names_functionFiles (name : String) (code : GeneratedCode) :
    (functionFiles name code).map Prod.fst =
      (name ++ ".c") :: if code.header.isSome then [name ++ ".h"] else [] := by
  rw [functionFiles, List.map_cons]
  cases code.header <;> rfl

/-- The plan to write the code of all functions of a model, one function after the other. -/
def Plan.ofCodes (config : Configuration) (model : String) (codes : FunctionKind → GeneratedCode) :
    Plan where
  base := config.base
  model := model
  files := [FunctionKind.value, .forward, .adjoint, .hessian].flatMap fun k =>
    functionFiles (k.functionName model) (codes k)

section Plans

variable [Written α] {m : Model α} {s : Sensitivities (SymbolicFunction α)}
  {config : Configuration} {codes : FunctionKind → GeneratedCode}

/-- **The files of a plan have the names of the functions**, in the order of writing. -/
theorem Plan.names_ofCodes
    (hcodes : ∀ k, generateCode config.code (s.get k) = .ok (codes k)) :
    (Plan.ofCodes config m.name codes).files.map Prod.fst = fileNames config.code m.name := by
  have hone : ∀ k, (functionFiles (k.functionName m.name) (codes k)).map Prod.fst =
      (k.functionName m.name ++ ".c") ::
        if config.code.header then [k.functionName m.name ++ ".h"] else [] := by
    intro k
    rw [names_functionFiles, (generateCode_ok (hcodes k)).2]
  rw [ofCodes, fileNames, List.map_flatMap, funext hone]
  cases config.code.header <;>
    simp [fileEndings, FunctionKind.functionName, FunctionKind.ending, String.append_assoc]

theorem Plan.wellNamed_ofCodes (hname : isIdentifier m.name = true)
    (hcodes : ∀ k, generateCode config.code (s.get k) = .ok (codes k)) :
    (Plan.ofCodes config m.name codes).WellNamed where
  model := hname
  files f hf := by
    have hmem := List.mem_map_of_mem (f := Prod.fst) hf
    rw [names_ofCodes hcodes] at hmem
    exact isEntryName_of_mem_fileNames hname hmem
  distinct := by
    rw [names_ofCodes hcodes]
    exact nodup_fileNames config.code m.name

/-- **A run writes the files in the order of the plan.** -/
theorem emit_ofCodes (hs : m.Proper s)
    (hcodes : ∀ k, generateCode config.code (s.get k) = .ok (codes k)) :
    emit config m.name s.toList = (Plan.ofCodes config m.name codes).carryOut := by
  have hall : s.toList.mapM (generateCode config.code) = .ok (FunctionKind.all.map codes) := by
    rw [mapM_eq_ok_iff, Sensitivities.toList, List.forall₂_map_left_iff,
      List.forall₂_map_right_iff]
    exact List.forall₂_same.mpr fun k _ => hcodes k
  have hfiles : ∀ k, (codes k).files = functionFiles (k.functionName m.name) (codes k) := by
    intro k
    have hname : (codes k).name = k.functionName m.name :=
      (generateCode_ok (hcodes k)).1.trans (hs k).1
    rw [GeneratedCode.files, GeneratedCode.sourceFile, GeneratedCode.headerFile, hname,
      functionFiles]
    cases (codes k).header <;> rfl
  rw [emit_eq_carryOut m.name hall, List.flatMap_map, funext hfiles]
  rfl

/-- Without code for the value the directories are all that is made. -/
theorem emit_of_refused {cause : AlgebraError}
    (h : generateCode config.code (s.get .value) = .error cause) :
    emit config m.name s.toList =
      (do openDirectories config.base m.name
          throw (.code cause)) :=
  emit_eq_throw m.name h

/-- **All functions of a model have code, or none.** -/
theorem codes_or_refused (hs : m.Proper s) (options : CodeOptions) :
    (∃ codes : FunctionKind → GeneratedCode, ∀ k, generateCode options (s.get k) = .ok (codes k)) ∨
      ∀ k, ∃ cause, generateCode options (s.get k) = .error cause := by
  by_cases hrefused : options.gateway = .mex ∧ options.floats = .single
  · refine Or.inr fun k => ?_
    cases hcode : generateCode options (s.get k) with
    | error cause => exact ⟨cause, rfl⟩
    | ok code =>
        exact absurd hrefused ((generateCode_ok_iff (hs k).2 options).mp ⟨code, hcode⟩)
  · have hcode : ∀ k, ∃ code, generateCode options (s.get k) = .ok code :=
      fun k => (generateCode_ok_iff (hs k).2 options).mpr hrefused
    exact Or.inl ⟨fun k => (hcode k).choose, fun k => (hcode k).choose_spec⟩

/-- A model that fits has functions and code, if the options do not refuse it. -/
theorem Model.WellPosed.exists_codes [Scalar α] {representation : Representation} {nx nu n : Nat}
    (h : m.WellPosed representation nx nu n) {options : CodeOptions}
    (hoptions : ¬(options.gateway = .mex ∧ options.floats = .single)) :
    ∃ s, ∃ codes : FunctionKind → GeneratedCode, (m.sensitivities n).1 = .ok s ∧ m.Proper s ∧
      ∀ k, generateCode options (s.get k) = .ok (codes k) := by
  obtain ⟨s, hs, htyped⟩ := h.exists_typed
  have hcode : ∀ k, ∃ code, generateCode options (s.get k) = .ok code :=
    fun k => (generateCode_ok_iff (htyped.accepted k) options).mpr hoptions
  exact ⟨s, fun k => (hcode k).choose, hs, fun k => ⟨htyped.names k, htyped.accepted k⟩,
    fun k => (hcode k).choose_spec⟩

end Plans

/-! ## The same model again -/

namespace Model

variable {m m' : Model α} {ρ : Nat → Nat → Prop} {n n' next : Nat}

/-- The rates are made of nodes that exist together. -/
def Coherent (m : Model α) : Prop := ∃ pool : Pool α, ∀ e ∈ m.rate.elements, e ∈ pool

variable [Scalar α] {s : Sensitivities (SymbolicFunction α)}

theorem coherent_of_text {text : String}
    (h : (Declaration.modelOfText text : Attempt DescriptionError (Model α)) n = (.ok m, next)) :
    m.Coherent := by
  obtain ⟨_, _, _, _, _, rfl, _, hpool⟩ := Declaration.modelOfText_fits h
  exact hpool

theorem Coherent.proper (h : m.Coherent) (hs : m.sensitivities n = (.ok s, next)) :
    isIdentifier m.name = true ∧ m.Proper s := by
  obtain ⟨pool, hpool⟩ := h
  exact sensitivities_proper hpool n s (congrArg Prod.fst hs)

/-- **A model that is like one with functions has functions of the same code.** -/
theorem Alike.sensitivities_again [Written α] (hρ : BiUnique ρ) (h : m.Alike ρ m')
    (hm : m.Coherent) (hm' : m'.Coherent) (hn : Onward ρ n n')
    (hs : m.sensitivities n = (.ok s, next)) :
    ∃ s' next', m'.sensitivities n' = (.ok s', next') ∧
      ∀ k options, generateCode options (s.get k) = generateCode options (s'.get k) := by
  obtain ⟨s', next', hs', halike, _⟩ := (together_sensitivities hρ h).exists_ok hn hs
  refine ⟨s', next', hs', fun k options => ?_⟩
  exact (halike k).generateCode_eq hρ ((hm.proper hs).2 k).2 ((hm'.proper hs').2 k).2 options

end Model

end ExplicitOde
