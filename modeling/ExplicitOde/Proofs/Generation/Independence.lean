import ExplicitOde.Proofs.Generation.Run

/-!
# Models do not interfere

The directories of two models differ in their last name, so that **no place is the file of both**.
All that is common to two runs is the way to the directory of all generated code, and on it both
make the same directories. So the runs of two models commute: a run needs nothing that the other
makes, and makes nothing that the other must not find.
-/

namespace ExplicitOde

open FileSystem

variable {α : Type} {files mid after : FileSystem}

/-! ## Two plans -/

namespace Plan

variable {p q : Plan}

theorem place_eq (hp : p.WellNamed) (f : String × String) :
    p.place f = modelPlace p.base p.model ++ [f.1] := by
  rw [place, entryPlace, directory, destination_modelDirectory p.base hp.model]

theorem modelDirectoryName_injective : Function.Injective modelDirectoryName := by
  intro model model' h
  have htoList := congrArg String.toList h
  rw [modelDirectoryName, modelDirectoryName, String.toList_append, String.toList_append] at htoList
  exact String.toList_inj.mp (List.append_cancel_right htoList)

theorem modelPlace_injective (base : String) : Function.Injective (modelPlace base) :=
  fun _ _ h => modelDirectoryName_injective (entryPlace_injective _ h)

/-- **Models with different names have no file in common.** -/
theorem place_ne (hp : p.WellNamed) (hq : q.WellNamed) (hbase : p.base = q.base)
    (hmodel : p.model ≠ q.model) (f g : String × String) : p.place f ≠ q.place g := by
  intro h
  rw [place_eq hp, place_eq hq, hbase] at h
  exact hmodel (modelPlace_injective q.base (List.append_inj_left' h rfl))

/-- No file of one plan is a file of the other, or on the way of the other. -/
structure Apart (p q : Plan) : Prop where
  files : ∀ f ∈ p.files, ∀ g ∈ q.files, p.place f ≠ q.place g
  left : ∀ f ∈ p.files, p.place f ∉ q.way
  right : ∀ g ∈ q.files, q.place g ∉ p.way

theorem Apart.symm (h : p.Apart q) : q.Apart p :=
  ⟨fun g hg f hf => (h.files f hf g hg).symm, h.right, h.left⟩

/-- Plans that can be carried out one after the other are apart, if they have no file in common. -/
theorem Apart.of_ready (hfiles : ∀ f ∈ p.files, ∀ g ∈ q.files, p.place f ≠ q.place g)
    (hdone : p.Done files mid) (hready : q.Ready mid) : p.Apart q where
  files := hfiles
  left f hf hway := by
    rcases hready.makeable_way _ hway with h | ⟨h, _⟩
    · rw [hdone.written f hf] at h
      cases h
    · rw [hdone.written f hf] at h
      cases h
  right g hg hway := (hready.free g hg).1 (hdone.way _ hway)

/-- At the places that matter to one plan, the other makes directories at most. -/
theorem Done.get?_of_apart (h : p.Apart q) (hdone : p.Done files mid) {r : Place}
    (hr : r ∈ q.way ∨ ∃ g ∈ q.files, r = q.place g) (hway : r ∉ p.way) :
    mid.get? r = files.get? r := by
  refine hdone.get?_of_other hway fun f hf heq => ?_
  rcases hr with hr | ⟨g, hg, hr⟩
  · exact h.left f hf (heq ▸ hr)
  · exact h.files f hf g hg (heq.symm.trans hr)

/-- **Whether a plan can be carried out does not depend on another that is apart.** -/
theorem Ready.iff_of_apart (h : p.Apart q) (hmodel : isIdentifier q.model = true)
    (hp : p.Ready files) (hdone : p.Done files mid) : q.Ready mid ↔ q.Ready files := by
  have hway : ∀ r ∈ q.way, (mid.Makeable r ↔ files.Makeable r) := by
    intro r hr
    by_cases hpr : r ∈ p.way
    · exact iff_of_true (Or.inl (hdone.way r hpr)) (hp.makeable_way r hpr)
    · rw [Makeable, Makeable, hdone.get?_of_apart h (Or.inl hr) hpr]
  have hplace : ∀ g ∈ q.files, mid.get? (q.place g) = files.get? (q.place g) :=
    fun g hg => hdone.get?_of_apart h (Or.inr ⟨g, hg, rfl⟩) (h.right g hg)
  constructor
  · exact fun hq => hq.of_makeable hmodel hdone.longestPath.symm
      (fun r hr => (hway r hr).mp (hq.makeable_way r hr))
      fun g hg => hplace g hg ▸ (hq.free g hg).1
  · exact fun hq => hq.of_makeable hmodel hdone.longestPath
      (fun r hr => (hway r hr).mpr (hq.makeable_way r hr))
      fun g hg => (hplace g hg).symm ▸ (hq.free g hg).1

/-- **Plans that are apart can be carried out in either order.** -/
theorem Done.comm {mid' after' : FileSystem} (h : p.Apart q) (hp : p.Done files mid)
    (hq : q.Done mid after) (hq' : q.Done files mid') (hp' : p.Done mid' after') :
    after'.get? = after.get? := by
  funext r
  by_cases hpfile : ∃ f ∈ p.files, r = p.place f
  · obtain ⟨f, hf, rfl⟩ := hpfile
    rw [hp'.written f hf, hq.get?_of_apart h.symm (Or.inr ⟨f, hf, rfl⟩) (h.left f hf),
      hp.written f hf]
  by_cases hqfile : ∃ g ∈ q.files, r = q.place g
  · obtain ⟨g, hg, rfl⟩ := hqfile
    rw [hq.written g hg, hp'.get?_of_apart h (Or.inr ⟨g, hg, rfl⟩) (h.right g hg),
      hq'.written g hg]
  have hnot : ∀ f ∈ p.files, r ≠ p.place f := fun f hf heq => hpfile ⟨f, hf, heq⟩
  have hnot' : ∀ g ∈ q.files, r ≠ q.place g := fun g hg heq => hqfile ⟨g, hg, heq⟩
  -- directories of either stay directories
  by_cases hpway : r ∈ p.way
  · rw [hp'.way r hpway]
    by_cases hqway : r ∈ q.way
    · rw [hq.way r hqway]
    · rw [hq.get?_of_other hqway hnot', hp.way r hpway]
  · rw [hp'.get?_of_other hpway hnot]
    by_cases hqway : r ∈ q.way
    · rw [hq.way r hqway, hq'.way r hqway]
    · rw [hq.get?_of_other hqway hnot', hq'.get?_of_other hqway hnot',
        hp.get?_of_other hpway hnot]

end Plan

/-! ## One model at two times -/

/-- The matrices that the parameters are given as. -/
def Parameters.parts : Parameters α → List (ExprMatrix α)
  | symbolic p => [p]
  | separate parts => parts

/-- The matrices that a model is given as. -/
def Model.parts (m : Model α) : List (ExprMatrix α) := m.x :: m.u :: m.rate :: m.p.parts

/-- All nodes of a model exist. -/
def Model.Exists (m : Model α) (pool : Pool α) : Prop :=
  ∀ part ∈ m.parts, ∀ e ∈ part.elements, e ∈ pool

variable {pool : Pool α} {bound : Nat}

/-- A node that exists is like itself, whatever is made later. -/
theorem Pool.alike_moved (hbound : pool.next ≤ bound) (n n' : Nat) {e : Expr α} (he : e ∈ pool) :
    e.Alike (Moved bound n n') e := by
  have hid : ∀ x ∈ pool, Moved bound n n' x.id x.id := fun x hx =>
    Or.inl ⟨Nat.lt_of_lt_of_le (pool.id_lt x hx) hbound, rfl⟩
  induction e with
  | const i v => exact .const (hid _ he)
  | symbol i name => exact .symbol (hid _ he)
  | unary i op a iha =>
      exact .unary (hid _ he) (iha (pool.operand_mem _ he a (by simp [Expr.operands])))
  | binary i op a b iha ihb =>
      exact .binary (hid _ he) (iha (pool.operand_mem _ he a (by simp [Expr.operands])))
        (ihb (pool.operand_mem _ he b (by simp [Expr.operands])))

namespace Model

variable {m : Model α}

theorem Exists.coherent (h : m.Exists pool) : m.Coherent :=
  ⟨pool, h m.rate (by simp [parts])⟩

/-- **A model that exists is like itself, whatever is made later.** -/
theorem Exists.alike (h : m.Exists pool) (hbound : pool.next ≤ bound) (n n' : Nat) :
    m.Alike (Moved bound n n') m := by
  have hpart : ∀ part ∈ m.parts, part.Alike (Moved bound n n') part := fun part hp =>
    ⟨rfl, rfl, rfl, List.forall₂_same.mpr fun e he => Pool.alike_moved hbound n n' (h part hp e he)⟩
  refine ⟨rfl, hpart _ (by simp [parts]), hpart _ (by simp [parts]), ?_, hpart _ (by simp [parts])⟩
  unfold parts at hpart
  cases hp : m.p with
  | symbolic p => exact .symbolic (hpart p (by simp [hp, Parameters.parts]))
  | separate ps =>
      exact .separate (List.forall₂_same.mpr fun part hmem =>
        hpart part (by simp [hp, Parameters.parts, hmem]))

variable {n n' next : Nat}

theorem Exists.repeats (h : m.Exists pool) (hn : pool.next ≤ n) (hn' : pool.next ≤ n') :
    Subject.Repeats n n' (.model m) (.model m) :=
  .model (biUnique_moved hn hn') (onward_moved pool.next n n') (h.alike (Nat.le_refl _) n n')
    h.coherent

variable [Scalar α]

/-- Making the functions of a model takes no identity back. -/
theorem Exists.next_le (h : m.Exists pool) (hn : pool.next ≤ n) : n ≤ (m.sensitivities n).2 :=
  (together_sensitivities (biUnique_moved (Nat.le_refl n) (Nat.le_succ n))
    (h.alike hn n (n + 1))).next_le

/-! ## Runs of one model -/

variable [Written α] {config : Configuration}

/-- Places where a run of a model can make a file that was not there before, or not with this text.
The file system before may be any, so that a file that is written over with what it holds counts as
well. -/
def Writes (m : Model α) (config : Configuration) (q : Place) : Prop :=
  ∃ files n result after next, generateModel config m files n = ((result, after), next) ∧
    after.get? q ≠ files.get? q ∧ ∃ text, after.get? q = some (.file text)

/-- **What a run of a model changes** is a file in its directory, or a directory on the way that
was missing. -/
theorem Coherent.changes (h : m.Coherent) {result : Except GenerationError Emitted}
    (hrun : generateModel config m files n = ((result, after), next)) {q : Place}
    (hq : after.get? q ≠ files.get? q) :
    (∃ name, q = modelPlace config.base m.name ++ [name]) ∨
      q ∈ way (modelDirectory config.base m.name) ∧ files.get? q = none ∧
        after.get? q = some .directory := by
  have hself : ∀ {m' : Model α} {s : Sensitivities (SymbolicFunction α)},
      (Subject.model m).Passed config n m' s → m' = m :=
    fun hpassed => (Subject.functionsOf_ok (Prod.ext hpassed.functions rfl)).1
  cases Subject.ends_of_run (show (Subject.model m).Coherent from h) hrun with
  | version => exact absurd rfl hq
  | fault => exact absurd rfl hq
  | closed hpassed _ hgrown =>
      obtain rfl := hself hpassed
      exact Or.inr (hgrown.of_ne hq)
  | refused hpassed _ _ hgrown =>
      obtain rfl := hself hpassed
      exact Or.inr (hgrown.of_ne hq)
  | @plan m' s codes _ _ hpassed hcodes hends =>
      obtain rfl := hself hpassed
      have hnamed := Plan.wellNamed_ofCodes hpassed.name hcodes
      have hplace : ∀ {done : List (String × String)},
          (∃ f ∈ done, q = (Plan.ofCodes config m'.name codes).place f) →
            ∃ name, q = modelPlace config.base m'.name ++ [name] :=
        fun ⟨f, _, heq⟩ => ⟨f.1, heq.trans (Plan.place_eq hnamed f)⟩
      cases hends with
      | done _ hdone => exact (hdone.toChanges.of_ne hq).imp_left hplace
      | closed _ _ hgrown => exact Or.inr (hgrown.of_ne hq)
      | broken _ _ hchanges => exact (hchanges.of_ne hq).imp_left hplace

/-- Files are made in the directory of the model only. -/
theorem Coherent.place_of_writes (h : m.Coherent) {q : Place} (hwrites : m.Writes config q) :
    ∃ name, q = modelPlace config.base m.name ++ [name] := by
  obtain ⟨files, n, result, after, next, hrun, hq, text, htext⟩ := hwrites
  refine (h.changes hrun hq).resolve_right fun hdirectory => ?_
  rw [hdirectory.2.2] at htext
  cases htext

/-- A plan that a model has, wherever its functions are made. -/
structure HasPlan (m : Model α) (config : Configuration) (bound : Nat) (p : Plan) : Prop where
  base : p.base = config.base
  model : p.model = m.name
  named : p.WellNamed
  /-- Where the plan can be carried out, a run succeeds. -/
  run : ∀ n, bound ≤ n → ∀ files, p.Ready files → ∃ after next, bound ≤ next ∧
    generateModel config m files n = ((.ok ⟨p.directory, p.files.map p.path⟩, after), next) ∧
      p.Done files after

/-- A model of which the functions have code has a plan. -/
theorem Exists.hasPlan_of_codes (h : m.Exists pool) (hn : pool.next ≤ n)
    (hversion : engineVersion ∈ config.versions) {s : Sensitivities (SymbolicFunction α)}
    (hs : m.sensitivities n = (.ok s, next)) {codes : FunctionKind → GeneratedCode}
    (hcodes : ∀ k, generateCode config.code (s.get k) = .ok (codes k)) :
    m.HasPlan config pool.next (Plan.ofCodes config m.name codes) := by
  have hcoherent : (Subject.model m).Coherent := h.coherent
  obtain ⟨hname, hproper⟩ := h.coherent.proper hs
  refine ⟨rfl, rfl, Plan.wellNamed_ofCodes hname hcodes, fun n' hn' files' hready => ?_⟩
  obtain ⟨_, m', s', next', hfunctions, _, hcode⟩ :=
    (h.repeats hn hn').functions hcoherent (congrArg Prod.fst (Subject.functionsOf_of_ok hs))
  obtain ⟨rfl, hs'⟩ := Subject.functionsOf_ok hfunctions
  obtain ⟨after', hrun', hdone'⟩ := Subject.generate_of_ready hversion hname
    (h.coherent.proper hs').2 hfunctions
    (fun k => (hcode k config.code).symm.trans (hcodes k)) hready
  have hnext := h.next_le hn'
  rw [hs'] at hnext
  exact ⟨after', next', Nat.le_trans hn' hnext, hrun', hdone'⟩

/-- **A run that succeeds has carried out a plan, and so does every other run of the model where
the plan can be carried out.** -/
theorem Exists.hasPlan (h : m.Exists pool) (hn : pool.next ≤ n) {e : Emitted}
    (hrun : generateModel config m files n = ((.ok e, after), next)) :
    ∃ p, m.HasPlan config pool.next p ∧ p.Ready files ∧ p.Done files after ∧
      e = ⟨p.directory, p.files.map p.path⟩ := by
  obtain ⟨m', s, codes, hpassed, hcodes, hready, hdone, he⟩ :=
    (Subject.ends_of_run (show (Subject.model m).Coherent from h.coherent) hrun).plan_of_ok
  obtain ⟨rfl, hs⟩ := Subject.functionsOf_ok (Prod.ext hpassed.functions rfl)
  exact ⟨_, h.hasPlan_of_codes hn hpassed.version hs hcodes, hready, hdone, he⟩

/-- The next identity after a run is that after its functions. -/
theorem Exists.run_next_le (h : m.Exists pool) (hn : pool.next ≤ n) {e : Emitted}
    (hrun : generateModel config m files n = ((.ok e, after), next)) : pool.next ≤ next := by
  obtain ⟨p, hplan, hready, _⟩ := h.hasPlan hn hrun
  obtain ⟨_, next', hle, hrun', _⟩ := hplan.run n hn files hready
  rw [hrun] at hrun'
  exact (Prod.mk.inj hrun').2 ▸ hle

variable {a b : Model α} {ca cb : Configuration} {p q : Plan}

/-- **Runs with plans that are apart succeed in the other order as well.** -/
theorem HasPlan.exchange (hp : a.HasPlan ca bound p) (hq : b.HasPlan cb bound q)
    (hapart : p.Apart q) (hn : bound ≤ n) (hpready : p.Ready files) (hpdone : p.Done files mid)
    (hqready : q.Ready mid) (hqdone : q.Done mid after) :
    ∃ mid' n₁ after' n₂,
      generateModel cb b files n = ((.ok ⟨q.directory, q.files.map q.path⟩, mid'), n₁) ∧
      generateModel ca a mid' n₁ = ((.ok ⟨p.directory, p.files.map p.path⟩, after'), n₂) ∧
      after'.get? = after.get? := by
  have hqready' := (Plan.Ready.iff_of_apart hapart hq.named.model hpready hpdone).mp hqready
  obtain ⟨mid', n₁, hn₁, hrunb, hqdone'⟩ := hq.run n hn files hqready'
  have hpready' := (Plan.Ready.iff_of_apart hapart.symm hp.named.model hqready' hqdone').mpr hpready
  obtain ⟨after', n₂, _, hruna, hpdone'⟩ := hp.run n₁ hn₁ mid' hpready'
  exact ⟨mid', n₁, after', n₂, hrunb, hruna, hpdone.comm hapart hqdone hqdone' hpdone'⟩

/-- **Models with different names do not interfere.** A run of one changes nothing but what is in
its directory, and the way there where it was missing; no file is written by both; and if runs of
both succeed one after the other, so do the same runs in the other order, and what they leave is the
same at every place. -/
theorem generate_independent (hbase : ca.base = cb.base) (hname : a.name ≠ b.name)
    (ha : a.Exists pool) (hb : b.Exists pool) :
    (∀ files n result after next, generateModel ca a files n = ((result, after), next) →
      ∀ q, after.get? q ≠ files.get? q → modelPlace ca.base a.name <+: q ∨
        q ∈ way (modelDirectory ca.base a.name) ∧ files.get? q = none ∧
          after.get? q = some .directory) ∧
    (∀ q, a.Writes ca q → ¬b.Writes cb q) ∧
    ∀ files n, pool.next ≤ n → ∀ ea mid n₁ eb after n₂,
      generateModel ca a files n = ((.ok ea, mid), n₁) →
      generateModel cb b mid n₁ = ((.ok eb, after), n₂) →
        (∀ x ∈ ea.paths, ∀ y ∈ eb.paths, ∀ other : FileSystem, ∀ q,
          other.filePlace? x = some q → other.filePlace? y ≠ some q) ∧
        ∃ mid' n₁' after' n₂', generateModel cb b files n = ((.ok eb, mid'), n₁') ∧
          generateModel ca a mid' n₁' = ((.ok ea, after'), n₂') ∧ after'.get? = after.get? := by
  refine ⟨fun files n result after next hrun q hq => ?_, fun q => ?_, ?_⟩
  · refine (ha.coherent.changes hrun hq).imp_left ?_
    rintro ⟨name, rfl⟩
    exact List.prefix_append _ _
  · intro hwa hwb
    obtain ⟨x, hx⟩ := ha.coherent.place_of_writes hwa
    obtain ⟨y, hy⟩ := hb.coherent.place_of_writes hwb
    rw [hx, hbase] at hy
    exact hname (Plan.modelPlace_injective cb.base (List.append_inj_left' hy rfl))
  · intro files n hn ea mid n₁ eb after n₂ hruna hrunb
    obtain ⟨p, hp, hpready, hpdone, rfl⟩ := ha.hasPlan hn hruna
    obtain ⟨q, hq, hqready, hqdone, rfl⟩ := hb.hasPlan (ha.run_next_le hn hruna) hrunb
    have hne : ∀ f g, p.place f ≠ q.place g := Plan.place_ne hp.named hq.named
      (by rw [hp.base, hq.base, hbase]) (by rw [hp.model, hq.model]; exact hname)
    have hapart := Plan.Apart.of_ready (fun f _ g _ => hne f g) hpdone hqready
    refine ⟨fun x hx y hy other r hxr hyr => ?_, ?_⟩
    · obtain ⟨f, hf, rfl⟩ := List.mem_map.mp hx
      obtain ⟨g, hg, rfl⟩ := List.mem_map.mp hy
      have hxplace := eq_entryPlace_of_filePlace? (hp.named.files f hf) hxr
      have hyplace := eq_entryPlace_of_filePlace? (hq.named.files g hg) hyr
      exact hne f g (hxplace.symm.trans hyplace)
    · exact hp.exchange hq hapart hn hpready hpdone hqready hqdone

/-! Two models that differ in their names only, and the name of one is that of the directory of the
other. -/

open Declaration ExplicitOde.Expr

/-- The nodes of the models. -/
def drivenPool : Pool Float :=
  ((((Pool.empty 0).growSymbol "a").growSymbol "w").growSymbol "k" |>.grow
    (binary 3 .mul (symbol 2 "k") (symbol 0 "a")) rfl
    (List.forall_mem_cons.mpr ⟨Or.inl rfl,
      List.forall_mem_singleton.mpr (Or.inr (Or.inr (Or.inl rfl)))⟩)).grow
    (binary 4 .sub (symbol 1 "w") (binary 3 .mul (symbol 2 "k") (symbol 0 "a"))) rfl
    (List.forall_mem_cons.mpr ⟨Or.inr (Or.inr (Or.inl rfl)),
      List.forall_mem_singleton.mpr (Or.inl rfl)⟩)

/-- The model under a name. -/
def driven (name : String) : Model Float := { drivenModel Float with name := name }

theorem driven_exists (name : String) : (driven name).Exists drivenPool := by
  have hx : symbol 0 "a" ∈ drivenPool := Or.inr (Or.inr (Or.inr (Or.inr (Or.inl rfl))))
  have hu : symbol 1 "w" ∈ drivenPool := Or.inr (Or.inr (Or.inr (Or.inl rfl)))
  have hp : symbol 2 "k" ∈ drivenPool := Or.inr (Or.inr (Or.inl rfl))
  have hrate : binary 4 .sub (symbol 1 "w") (binary 3 .mul (symbol 2 "k") (symbol 0 "a")) ∈
      drivenPool := Or.inl rfl
  refine List.forall_mem_cons.mpr ⟨?_, List.forall_mem_cons.mpr ⟨?_,
    List.forall_mem_cons.mpr ⟨?_, List.forall_mem_singleton.mpr ?_⟩⟩⟩
  · exact List.forall_mem_singleton.mpr hx
  · exact List.forall_mem_singleton.mpr hu
  · exact List.forall_mem_singleton.mpr hrate
  · exact List.forall_mem_singleton.mpr hp

theorem driven_hasPlan {name : String} (hname : isIdentifier name = true)
    (hshort : Plan.ShortNames "." name (fileNames {} name)) :
    ∃ fs, (driven name).HasPlan {} 5 ⟨".", name, fs⟩ ∧ Plan.Ready ⟨".", name, fs⟩ .empty ∧
      fs.map Prod.fst = fileNames {} name := by
  have hwellPosed : (driven name).WellPosed .sx 1 1 5 :=
    { @drivenModel_wellPosed Float with name := hname }
  obtain ⟨s, codes, hs, hproper, hcodes⟩ :=
    hwellPosed.exists_codes (show ¬(({} : Configuration).code.gateway = .mex ∧
      ({} : Configuration).code.floats = .single) by decide)
  have hplan := (driven_exists name).hasPlan_of_codes (Nat.le_refl 5)
    (show engineVersion ∈ ({} : Configuration).versions by decide) (Prod.ext hs rfl) hcodes
  have hnames : (Plan.ofCodes {} (driven name).name codes).files.map Prod.fst =
      fileNames {} name := Plan.names_ofCodes hcodes
  have hready : (Plan.ofCodes {} (driven name).name codes).Ready .empty := by
    refine Plan.Ready.of_empty hname ?_
    rw [hnames]
    exact hshort
  exact ⟨_, hplan, hready, hnames⟩

/-- No file of one name is a directory of the other. -/
abbrev ClearOf (name other : String) : Prop :=
  ∀ file ∈ fileNames {} name,
    entryPlace (modelDirectory "." name) file ∉ way (modelDirectory "." other)

theorem driven_apart {name other : String} {fs gs : List (String × String)} (hne : name ≠ other)
    (hp : (driven name).HasPlan {} 5 ⟨".", name, fs⟩)
    (hq : (driven other).HasPlan {} 5 ⟨".", other, gs⟩)
    (hfs : fs.map Prod.fst = fileNames {} name) (hgs : gs.map Prod.fst = fileNames {} other)
    (hclear : ClearOf name other) (hclear' : ClearOf other name) :
    Plan.Apart ⟨".", name, fs⟩ ⟨".", other, gs⟩ where
  files f _ g _ := Plan.place_ne hp.named hq.named rfl hne f g
  left f hf := hclear f.1 (hfs ▸ List.mem_map_of_mem hf)
  right g hg := hclear' g.1 (hgs ▸ List.mem_map_of_mem hg)

/-- From nothing, the runs succeed one after the other, and then in the other order. -/
theorem generate_independent_driven :
    (∀ q, (driven "driven").Writes {} q → ¬(driven "driven_model").Writes {} q) ∧
    ∃ ea mid n₁ eb after n₂ mid' n₁' after' n₂',
      generateModel {} (driven "driven") .empty 5 = ((.ok ea, mid), n₁) ∧
      generateModel {} (driven "driven_model") mid n₁ = ((.ok eb, after), n₂) ∧
      generateModel {} (driven "driven_model") .empty 5 = ((.ok eb, mid'), n₁') ∧
      generateModel {} (driven "driven") mid' n₁' = ((.ok ea, after'), n₂') ∧
      after'.get? = after.get? := by
  have hne : "driven" ≠ "driven_model" := by decide
  obtain ⟨_, hwrites, hcomm⟩ := @generate_independent Float drivenPool _ _ (driven "driven")
    (driven "driven_model") {} {} rfl hne (driven_exists _) (driven_exists _)
  refine ⟨hwrites, ?_⟩
  obtain ⟨fs, hp, hpready, hfs⟩ :=
    driven_hasPlan (show isIdentifier "driven" = true by decide) (by decide)
  obtain ⟨gs, hq, hqready, hgs⟩ :=
    driven_hasPlan (show isIdentifier "driven_model" = true by decide) (by decide)
  have hapart := driven_apart hne hp hq hfs hgs (by decide) (by decide)
  obtain ⟨mid, n₁, hn₁, hruna, hpdone⟩ := hp.run 5 (Nat.le_refl 5) .empty hpready
  have hqready' := (Plan.Ready.iff_of_apart hapart hq.named.model hpready hpdone).mpr hqready
  obtain ⟨after, n₂, _, hrunb, _⟩ := hq.run n₁ hn₁ mid hqready'
  obtain ⟨_, mid', n₁', after', n₂', hrunb', hruna', hsame⟩ :=
    hcomm .empty 5 (Nat.le_refl 5) _ mid n₁ _ after n₂ hruna hrunb
  exact ⟨_, mid, n₁, _, after, n₂, mid', n₁', after', n₂', hruna, hrunb, hrunb', hruna', hsame⟩

end Model

end ExplicitOde
