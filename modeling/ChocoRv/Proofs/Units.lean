import ChocoRv.Proofs.Contexts

/-!
# The parts of a listing

Main, the functions, the helper routines and the data of an accepted program are emitted one after
the other. Each part can be linked and defines its named labels and fresh ones; no two labels of the
whole listing are equal, and what one part refers to another one defines.
-/

namespace ChocoRv

open Asm Codegen Emit

/-! ### Named and fresh labels -/

/-- The labels that the code defines are the named ones and fresh ones. -/
def Labelled (named : List Label) (s : EmitState) (code : List Item) (s' : EmitState) : Prop :=
  ∃ body, Numbered s body s' ∧ (defined code).Perm (named ++ defined body)

theorem Labelled.append {named named' : List Label} {s s₁ s₂ : EmitState} {code more : List Item}
    (h : Labelled named s code s₁) (h' : Labelled named' s₁ more s₂) :
    Labelled (named ++ named') s (code ++ more) s₂ := by
  obtain ⟨body, hbody, hperm⟩ := h
  obtain ⟨body', hbody', hperm'⟩ := h'
  refine ⟨body ++ body', hbody.append hbody', ?_⟩
  rw [defined_append, defined_append]
  refine (hperm.append hperm').trans ?_
  rw [List.append_assoc, List.append_assoc]
  exact (List.perm_append_comm_assoc _ _ _).append_left named

namespace Emit

variable {α β : Type} {known : Label → Prop} {named named' : List Label}

/-- The computation emits code that can be linked and that defines the named labels. -/
def Emits (known : Label → Prop) (named : List Label) (x : Emit α) : Prop :=
  ∀ s, Ok x s fun _ code s' => Linkable known s code s' ∧ Labelled named s code s'

namespace Emits

theorem of {x : Emit α} (hlinks : Links known x) (hnumbers : Numbers x) : Emits known [] x :=
  fun s => ((hlinks s).and_all (hnumbers s)).mono fun _ code _ h =>
    ⟨h.1, code, h.2, .refl _⟩

theorem bind {x : Emit α} {f : α → Emit β} (hx : Emits known named x)
    (hf : ∀ a, Emits known named' (f a)) : Emits known (named ++ named') (x >>= f) := by
  intro s
  rw [ok_bind]
  exact (hx s).mono fun a code s₁ h => (hf a s₁).mono fun b more s₂ h' =>
    ⟨h.1.append h'.1, h.2.append h'.2⟩

/-- Code with one named label before other code. -/
theorem cons {x : Emit α} {f : α → Emit β} {l : Label} (hx : Emits known [l] x)
    (hf : ∀ a, Emits known named (f a)) : Emits known (l :: named) (x >>= f) :=
  hx.bind hf

/-- Code without named labels before other code. -/
theorem skip {x : Emit α} {f : α → Emit β} (hx : Emits known [] x)
    (hf : ∀ a, Emits known named (f a)) : Emits known named (x >>= f) :=
  hx.bind hf

theorem after {x : Emit α} {f : α → Emit β} (hlinks : Links known x) (hnumbers : Numbers x)
    (hf : ∀ a, Emits known named (f a)) : Emits known named (x >>= f) :=
  (of hlinks hnumbers).skip hf

theorem need {a? : Option α} {a : α} {e : CodegenFault} {f : α → Emit β} (ha : a? = some a)
    (hf : Emits known named (f a)) : Emits known named (need a? e >>= f) := by
  intro s
  rw [ok_bind, ok_need]
  exact ⟨a, ha, hf s⟩

theorem pure (a : α) : Emits known [] (pure a : Emit α) := of (.pure a) (.pure a)

theorem items {code : List Item} (hprintable : ∀ i ∈ code, i.Printable)
    (hlabels : ∀ l ∈ referred code, known l) : Emits known (defined code) (items code) := by
  intro s
  rw [ok_items]
  exact ⟨.of_pool hprintable hlabels rfl, [], .of_none rfl rfl, by simp⟩

/-- A label before other code. -/
theorem globalLabel (l : Label) {f : Unit → Emit β} (hf : ∀ u, Emits known named (f u)) :
    Emits known (l :: named) (Emit.items [.globalLabel l] >>= f) :=
  .cons (items (by simp [Item.Printable]) (by simp [referred, Item.refers?])) hf

theorem forM {γ : Type} {f : γ → Emit Unit} {g : γ → List Label} : ∀ {cs : List γ},
    (∀ c ∈ cs, Emits known (g c) (f c)) → Emits known (cs.flatMap g) (cs.forM f)
  | [], _ => pure ()
  | c :: cs, h => by
    obtain ⟨hc, hcs⟩ := List.forall_mem_cons.1 h
    rw [List.flatMap_cons]
    show Emits known _ (f c >>= fun _ => cs.forM f)
    exact hc.bind fun _ => forM hcs

end Emits

end Emit

variable {globals : Scope} {p : Program} {layouts : List ClassLayout}

namespace Codegen

/-! ### Main and functions -/

theorem emitMain_emits {c : Context} {t : Typing.Context} {known : Label → Prop} {body : List Stmt}
    (hc : c.Serves t known) (htyped : Stmt.AllTyped t body) (hvalid : Stmt.AllValid body)
    (hfors : Stmt.forCounts body = c.frame.fors) (htop : t.top = true) :
    Emits known [txt "main"] (emitMain c body) := by
  unfold emitMain
  refine .globalLabel _ fun _ =>
    .after (.jal (by decide) (hc.routines _ (by decide))) (by simp [jal])
    fun _ => ?_
  refine .after (.addi (by decide)) (by simp [addi]) fun _ => ?_
  refine .after (.sw (by decide)) (by simp [sw]) fun _ => ?_
  refine .after (.sw (by decide)) (by simp [sw]) fun _ => ?_
  refine .after (.addi (by decide)) (by simp [addi]) fun _ => ?_
  refine .after (Stmt.AllTyped.links hc htyped hvalid (by omega) (by simp [htop]))
    (Stmt.genAll_numbers c 0 body) fun _ => ?_
  refine .after (.li (by decide)) (by simp [li]) fun _ => ?_
  exact .of (.instr (by decide) (by simp [Instr.label?])) (by simp)

/-- A variable of a function has its type in the function's scope and a word in its frame. -/
theorem localVar_placed (hp : p.Accepted globals) {s : FrameSite} {outer : Values} {env : Env}
    (hn : p.Nested globals s outer env) {d : VarDef} (hd : .var d ∈ s.defn.decls) :
    (s.defn.scope globals.entries.value? outer).entries.get? d.name = some (.value d.ty) ∧
      (∃ o, s.frame.offset? d.name = some o) ∧ d.Valid := by
  have htable := (hn.declared hp.declared).get?_of_mem (hn.valid hp.valid)
    (mem_table_decl hd rfl : (d.name, .value d.ty) ∈ s.defn.table globals.entries.value? outer)
  obtain ⟨k, hk⟩ := List.mem_iff_getElem?.1
    (List.mem_filterMap.2 ⟨_, hd, rfl⟩ : d ∈ s.defn.decls.filterMap LocalDecl.var?)
  refine ⟨?_, ⟨_, (offset?_eq_some_iff hn.frame_eq (hn.declared hp.declared)).2
    (.inr ⟨k, d, hk, rfl, rfl⟩)⟩, ?_⟩
  · rw [FuncDef.scope_entries]
    exact htable
  · have hvalid := (hn.valid hp.valid).decls _ hd
    rwa [LocalDecl.Valid] at hvalid

theorem emitFunction_emits (hp : p.Accepted globals) (hlayouts : p.layouts globals = .ok layouts)
    {s : FrameSite} (hs : s ∈ p.frames) : Emits (p.Known layouts)
      [s.frame.label, s.frame.label ++ txt "$epilogue"] (emitFunction globals layouts s) := by
  obtain ⟨outer, env, hn⟩ := (Program.mem_frames_iff globals).1 hs
  have hb : ⟨s.chain, s.defn.body⟩ ∈ p.bodies :=
    List.mem_cons_of_mem _ (List.mem_map.2 ⟨s, hs, rfl⟩)
  obtain ⟨t, hglobals, -, henv, htyped⟩ := hp.body_typed hb
  let c : Context := ⟨globals, layouts, s.frame, s.outer, s.defn.ty.ret,
    s.frame.label ++ txt "$epilogue"⟩
  have hc : c.Serves t (p.Known layouts) :=
    Context.IsFor.serves ⟨rfl, rfl, rfl⟩ hp hlayouts hb hglobals henv
  have hfors : Stmt.forCounts s.defn.body = c.frame.fors := by
    show _ = s.frame.fors
    rw [hn.frame_eq]
    rfl
  unfold emitFunction
  refine .need (hn.enter hp layouts) ?_
  refine .cons (.items ?_ (by simp [referred, Item.refers?])) fun _ => ?_
  · simp only [List.forall_mem_cons, Item.Printable, List.mem_append, not_or, List.not_mem_nil,
      false_imp_iff, implies_true, and_true]
    refine ⟨⟨⟨by decide, hp.newline_notMem_name hs⟩, by decide⟩, fun hmem => ?_⟩
    have hdigit := isDigit_of_mem_decimal hmem
    revert hdigit
    decide
  refine .after (.addi (by decide)) (by simp [addi]) fun _ => ?_
  refine .after (.sw (by decide)) (by simp [sw]) fun _ => ?_
  refine .after (.sw (by decide)) (by simp [sw]) fun _ => ?_
  refine .after (.addi (by decide)) (by simp [addi]) fun _ => ?_
  refine .after (initLocals_links hc fun d hd => ?_) (initLocals_numbers c _ _) fun _ => ?_
  · obtain ⟨htype, hword, hvalid⟩ := localVar_placed hp hn hd
    exact ⟨⟨d.ty, htype⟩, hword, hvalid⟩
  refine .after (Stmt.AllTyped.links hc htyped (hp.body_valid hb) (by omega) fun _ => .epilogue hs)
    (Stmt.genAll_numbers c 0 _) fun _ => ?_
  refine .after (.mv (by decide)) (by simp [mv]) fun _ => ?_
  refine .cons (.items (List.forall_mem_singleton.2 (show newline ∉ txt "epilogue" by decide))
    (by simp [referred, Item.refers?])) fun _ => ?_
  refine .after (.lw (by decide)) (by simp [lw]) fun _ => ?_
  refine .after (.mv (by decide)) (by simp [mv]) fun _ => ?_
  refine .after (.lw (by decide)) (by simp [lw]) fun _ => ?_
  exact .of (.instr (by decide) (by simp [Instr.label?])) (by simp)

/-! ### Helper routines -/

theorem errorHandler_emits {known : Label → Prop} (hroutines : KnowsRoutines known) (l : Label)
    (code : Int) (message : String) : Emits known [l] (errorHandler l code message) := by
  unfold errorHandler
  refine .globalLabel _ fun _ => .after (.li (by decide)) (by simp [li]) fun _ => ?_
  refine .of (.strConstant fun l => ?_) (by simp [la, j])
  exact .bind (.la (by decide) (.inr rfl)) fun _ => .j (.inl (hroutines _ (by decide)))

theorem emitHelpers_emits (hp : p.Accepted globals) (hlayouts : p.layouts globals = .ok layouts) :
    Emits (p.Known layouts) helperLabels emitHelpers := by
  have hroutines : KnowsRoutines (p.Known layouts) := fun l hl => .routine hl
  have hint : p.Known layouts ClassLayout.int.prototypeLabel :=
    .prototype ((hp.layouts_extend hlayouts).1.subset (by decide))
  unfold emitHelpers
  refine .globalLabel _ fun _ => .after (.addi (by decide)) (by simp [addi]) fun _ => ?_
  refine .after (.sw (by decide)) (by simp [sw]) fun _ => ?_
  refine .after (.sw (by decide)) (by simp [sw]) fun _ => ?_
  refine .after (.la (by decide) hint) (by simp [la]) fun _ => ?_
  refine .after (.jal (by decide) (hroutines _ (by decide))) (by simp [jal]) fun _ => ?_
  refine .after (.lw (by decide)) (by simp [lw]) fun _ => ?_
  refine .after (.sw (by decide)) (by simp [sw]) fun _ => ?_
  refine .after (.lw (by decide)) (by simp [lw]) fun _ => ?_
  refine .after (.addi (by decide)) (by simp [addi]) fun _ => ?_
  refine .after (.instr (by decide) (by simp [Instr.label?])) (by simp) fun _ => ?_
  refine .globalLabel _ fun _ => .after (.slli (by decide)) (by simp [slli]) fun _ => ?_
  refine .after (.la_bool _ (by decide)) (by simp [la]) fun _ => ?_
  refine .after (.add (by decide)) (by simp [add]) fun _ => ?_
  refine .after (.instr (by decide) (by simp [Instr.label?])) (by simp) fun _ => ?_
  refine .cons (errorHandler_emits hroutines _ _ _) fun _ => ?_
  refine .cons (errorHandler_emits hroutines _ _ _) fun _ => ?_
  exact errorHandler_emits hroutines _ _ _

/-! ### Data -/

theorem items_numbers {code : List Item} (h : defined code = []) : Numbers (Emit.items code) := by
  intro s
  rw [all_items]
  exact .of_none rfl h

theorem literalWord_emits {known : Label → Prop} {value : Lit} (hvalue : value.Valid) (target : Ty)
    {comment : Bytes} (hcomment : newline ∉ comment) :
    Emits known [] (literalWord value target comment) := by
  have hword : ∀ n : Int, -2147483648 ≤ n ∧ n ≤ 2147483647 →
      Links known (Emit.items [.word n comment]) := fun n hn =>
    .items (List.forall_mem_singleton.2 ⟨hn, hcomment⟩) (by simp [referred, Item.refers?])
  have haddress : ∀ {known : Label → Prop} l, known l →
      Links known (Emit.items [.wordAddress l comment]) := fun l hl =>
    .items (List.forall_mem_singleton.2 hcomment) (by simpa [referred, Item.refers?] using hl)
  have hnumbers : ∀ l, Numbers (Emit.items [.wordAddress l comment]) := fun l => items_numbers rfl
  unfold literalWord
  cases value with
  | int n =>
    have hn : 0 ≤ n ∧ n ≤ 2147483647 := hvalue
    dsimp only
    split_ifs
    · exact .of (hword n (by omega)) (items_numbers rfl)
    · exact .of (.intConstant hn fun l => haddress l (.inr rfl)) (.bind (by simp) hnumbers)
  | bool b =>
    dsimp only
    split_ifs
    · exact .of (hword _ (by cases b <;> decide)) (items_numbers rfl)
    · refine .of (fun s => ?_) (hnumbers _)
      rw [ok_items]
      refine ⟨List.forall_mem_singleton.2 hcomment, fun l hl => .inr (.inr ?_), .refl _, id⟩
      obtain rfl : l = Pool.boolLabel b := by simpa [referred, Item.refers?] using hl
      exact Pool.boolLabel_mem s.pool b
  | str v => exact .of (.strConstant fun l => haddress l (.inr rfl)) (.bind (by simp) hnumbers)
  | none => exact .of (hword 0 (by decide)) (items_numbers rfl)

theorem emitPrototype_emits (hp : p.Accepted globals) (hlayouts : p.layouts globals = .ok layouts)
    {l : ClassLayout} (hl : l ∈ layouts) :
    Emits (p.Known layouts) [l.prototypeLabel] (emitPrototype l) := by
  obtain ⟨layouts', h', -, hsound⟩ := hp.layouts
  cases hlayouts.symm.trans h'
  have hname := (hp.layout_name_valid hlayouts hl).newline
  have hhead : ∀ size : Int, -2147483648 ≤ size ∧ size ≤ 2147483647 → ∀ words : List Item,
      (∀ i ∈ words, i.Printable) → referred words = [] → defined words = [] →
      Emits (p.Known layouts) [l.prototypeLabel] (Emit.items (prototypeHead l size ++ words)) := by
    intro size hsize words hwords hreferred hdefined
    have hdef : defined (prototypeHead l size ++ words) = [l.prototypeLabel] := by
      rw [defined_append, hdefined]
      rfl
    rw [← hdef]
    refine .items (List.forall_mem_append.2 ⟨?_, hwords⟩) ?_
    · simp only [prototypeHead, List.forall_mem_cons, Item.Printable, List.mem_append, not_or,
        List.not_mem_nil, false_imp_iff, implies_true, and_true, true_and]
      exact ⟨⟨(hsound l hl).tag, by decide, hname⟩, ⟨hsize, by decide⟩, by decide⟩
    · rw [referred_append, hreferred]
      simpa [referred, prototypeHead, Item.refers?] using .dispatch hl
  unfold emitPrototype
  split_ifs
  · exact hhead _ (by decide) _ (by simp only [List.forall_mem_singleton, Item.Printable]; decide)
      rfl rfl
  · exact hhead _ (by decide) _ (by
      simp only [List.forall_mem_cons, Item.Printable, List.not_mem_nil, false_imp_iff,
        implies_true, and_true]
      decide) rfl rfl
  · have hnil :=
      hhead (int32 (headerWords + l.attrs.length)) (ClassLayout.int32_range _) [] (by simp)
      rfl rfl
    rw [List.append_nil] at hnil
    have hattrs : Emits (p.Known layouts) (l.attrs.flatMap fun _ => [])
        (l.attrs.forM fun a => literalWord a.value a.type (txt "attribute " ++ a.name)) :=
      .forM fun a ha => by
        obtain ⟨haname, havalue⟩ := (hsound l hl).attrs a ha
        refine literalWord_emits havalue _ ?_
        rw [List.mem_append, not_or]
        exact ⟨by decide, haname.newline⟩
    have hempty : (l.attrs.flatMap fun _ => ([] : List Label)) = [] := by simp
    rw [hempty] at hattrs
    exact hnil.bind fun _ => hattrs

/-- The labels of the methods are those of functions of the program or of the runtime. -/
theorem dispatchTables_emits (hp : p.Accepted globals) (hlayouts : p.layouts globals = .ok layouts) :
    Emits (p.Known layouts) (layouts.map ClassLayout.dispatchLabel)
      (Emit.items (layouts.flatMap dispatchTable)) := by
  obtain ⟨layouts', h', -, hsound⟩ := hp.layouts
  cases hlayouts.symm.trans h'
  have hdefined : defined (layouts.flatMap dispatchTable) = layouts.map ClassLayout.dispatchLabel :=
    defined_flatMap fun l _ => by
      simp [dispatchTable, defined, Item.defines?, Function.comp_def]
  rw [← hdefined]
  refine .items (fun i hi => ?_) fun label hlabel => ?_
  · obtain ⟨l, -, hi⟩ := List.mem_flatMap.1 hi
    rcases List.mem_cons.1 hi with rfl | hi
    · trivial
    · obtain ⟨m, -, rfl⟩ := List.mem_map.1 hi
      exact List.not_mem_nil
  · obtain ⟨i, hi, hrefers⟩ := List.mem_filterMap.1 hlabel
    obtain ⟨l, hl, hi⟩ := List.mem_flatMap.1 hi
    rcases List.mem_cons.1 hi with rfl | hi
    · cases hrefers
    · obtain ⟨m, hm, rfl⟩ := List.mem_map.1 hi
      obtain rfl := Option.some.inj hrefers
      rcases (hsound l hl).methods m hm with hobject | ⟨t, ht, hm⟩
      · exact hobject ▸ .routine (by decide)
      · exact hm ▸ .func ht

theorem emitGlobals_emits (hp : p.Accepted globals) {known : Label → Prop} : ∀ {ds : List TopDecl},
    (∀ d ∈ ds, d ∈ p.decls) → Emits known
      ((ds.filterMap TopDecl.var?).map fun d => ChocoRv.globalLabel d.name) (emitGlobals globals ds)
  | [], _ => .pure ()
  | .var d :: ds, h => by
    obtain ⟨hd, hds⟩ := List.forall_mem_cons.1 h
    have hvalid : d.Valid := hp.valid.1 _ hd
    have hvalue : (globals.entries.lookup d.name |>.bind Entry.value?) = some d.ty :=
      hp.declared.value?_iff.2 ⟨d, hd, rfl, rfl⟩
    unfold emitGlobals
    refine .need hvalue (.globalLabel _ fun _ => ?_)
    refine .skip (literalWord_emits hvalid.2 _ ?_) fun _ => emitGlobals_emits hp hds
    rw [List.mem_append, not_or]
    exact ⟨by decide, ValidName.newline hvalid.1⟩
  | .func _ :: ds, h | .cls _ :: ds, h => by
    unfold emitGlobals
    show Emits known ((ds.filterMap TopDecl.var?).map _) _
    exact emitGlobals_emits hp (List.forall_mem_cons.1 h).2

/-! ### The whole listing -/

/-- All of a program but its constants. -/
def emitUnits (globals : Scope) (layouts : List ClassLayout) (p : Program) : Emit Unit := do
  Emit.items [.section_ .text]
  emitMain ⟨globals, layouts, p.mainFrame, [], .noneType, []⟩ p.body
  p.frames.forM (emitFunction globals layouts)
  emitHelpers
  Emit.items [.section_ .data]
  layouts.forM emitPrototype
  Emit.items listPrototype
  Emit.items (layouts.flatMap dispatchTable)
  emitGlobals globals p.decls

theorem emitProgram_eq (globals : Scope) (layouts : List ClassLayout) (p : Program) :
    emitProgram globals layouts p = emitUnits globals layouts p >>= fun _ => emitPool := by
  simp only [emitProgram, emitUnits, bind_assoc]

/-- The named labels of a program. -/
def namedLabels (layouts : List ClassLayout) (p : Program) : List Label :=
  txt "main" :: (p.frames.flatMap fun s => [s.frame.label, s.frame.label ++ txt "$epilogue"]) ++
    helperLabels ++ layouts.map ClassLayout.prototypeLabel ++ [txt "$.list$prototype"] ++
    layouts.map ClassLayout.dispatchLabel ++
    (p.decls.filterMap TopDecl.var?).map fun d => ChocoRv.globalLabel d.name

theorem emitUnits_emits (hp : p.Accepted globals) (hlayouts : p.layouts globals = .ok layouts) :
    Emits (p.Known layouts) (namedLabels layouts p) (emitUnits globals layouts p) := by
  have hsection : ∀ s : Section, Emits (p.Known layouts) [] (Emit.items [.section_ s]) := fun s =>
    .items (by simp [Item.Printable]) (by simp [referred, Item.refers?])
  have hmain : Emits (p.Known layouts) [txt "main"]
      (emitMain ⟨globals, layouts, p.mainFrame, [], .noneType, []⟩ p.body) :=
    emitMain_emits (t := .ofGlobals globals)
      (Context.IsFor.serves (b := ⟨[p.mainFrame], p.body⟩) ⟨rfl, rfl, rfl⟩ hp hlayouts
        (List.mem_cons_self ..) rfl rfl) hp.typed.2 hp.valid.2 rfl rfl
  have hlist : Emits (p.Known layouts) [txt "$.list$prototype"] (Emit.items listPrototype) := by
    refine .items ?_ (by simp [referred, listPrototype, Item.refers?])
    simp only [listPrototype, List.forall_mem_cons, Item.Printable, List.not_mem_nil,
      false_imp_iff, implies_true, and_true]
    decide
  have hprototypes : Emits (p.Known layouts) (layouts.map ClassLayout.prototypeLabel)
      (layouts.forM emitPrototype) := by
    rw [List.map_eq_flatMap]
    exact .forM fun l hl => emitPrototype_emits hp hlayouts hl
  have hdata := hprototypes.bind fun _ => hlist.bind fun _ =>
    (dispatchTables_emits hp hlayouts).bind fun _ => emitGlobals_emits hp fun d hd => hd
  have htext := (hsection .text).bind fun _ => hmain.bind fun _ =>
    (Emits.forM fun s hs => emitFunction_emits hp hlayouts hs).bind fun _ =>
      (emitHelpers_emits hp hlayouts).bind fun _ => (hsection .data).bind fun _ => hdata
  simpa [namedLabels, emitUnits] using htext

end Codegen

end ChocoRv
