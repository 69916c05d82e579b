import ChocoRv.Proofs.DataSection
import ChocoRv.Proofs.Deliveries
import ChocoRv.Proofs.ImplicitReturns

/-!
# Boxing

In the listing of an accepted program every value stands in the representation of the place that it
is delivered into. For the code of the routines this follows from their types, one site after the
other; for the words of global variables and attributes it is a property of the data section. Where
control comes to the end of a function, `None` is the result, and a function of a type for raw words
never comes there.
-/

namespace ChocoRv

open Asm Codegen Emit

/-! ### Routines -/

variable {globals : Scope} {p : Program} {layouts : List ClassLayout}

/-- The receiver of a method is one for its first parameter, the class that declares the method. -/
theorem Program.Accepted.receiver (hp : p.Accepted globals) (hover : p.Overrides globals)
    (htree : globals.hierarchy.Tree) {k x : Name} {f : FuncTy}
    (hk : globals.hierarchy.knows k = true) (h : globals.member? k x = some (.func f)) :
    ∃ self, f.params.head? = some self ∧ (Ty.cls k).GoesInto self := by
  obtain ⟨label, below, k', above, hlineage, -, himplements⟩ := hp.provides_of_member? hk h
  have hmem : k' ∈ globals.hierarchy.lineage k := by
    rw [hlineage]
    simp
  have hhead : f.params.head? = some (.cls k') := by
    cases himplements with
    | object => rfl
    | method hc hf => exact (hover _ hc _ hf).1
  refine ⟨.cls k', hhead, (Ty.Widens.to_cls fun hspecial => ?_).toGoesInto⟩
  rw [htree.final k hk k' hspecial hmem]

/-- The class of a receiver is known, and its values are receivers for the method that is found. -/
theorem Program.Accepted.receives (hp : p.Accepted globals) (hover : p.Overrides globals)
    (htree : globals.hierarchy.Tree) (hlayouts : p.layouts globals = .ok layouts)
    {t : Typing.Context} (hglobals : t.globals = globals) {o : Ty} {x : Name} {f : FuncTy}
    (h : Typing.method? t o x = some f) :
    ∃ self, f.params.head? = some self ∧ o.GoesInto self := by
  obtain ⟨cls, hcls, hmember, -⟩ := Typing.method?_eq_some h
  cases o with
  | cls name =>
    rw [Typing.Context.classOf?, Option.bind_eq_some_iff, hglobals] at hcls
    obtain ⟨e, hget, hclass⟩ := hcls
    have hentry : globals.entries.get? name = some (.cls cls) := by
      cases e with
      | cls c => exact hget.trans (congrArg (some ∘ Entry.cls) (Option.some.inj hclass))
      | value | func => cases hclass
    obtain ⟨layout, hlayout, -, rfl, hname, -⟩ := hp.find_layout hlayouts hentry
    rw [Typing.Context.member?, hglobals, hname] at hmember
    exact hp.receiver hover htree (hp.layout_knows hlayouts hlayout) hmember
  | noneType | emptyList | list => cases hcls

/-- What the statements of a routine are typed in serves its deliveries. -/
theorem Program.Accepted.routine_typed (hp : p.Accepted globals) (hover : p.Overrides globals)
    (htree : globals.hierarchy.Tree) (hlayouts : p.layouts globals = .ok layouts) {r : Routine}
    (hr : r ∈ p.routines globals layouts) : ∃ t : Typing.Context,
      r.context.Delivers t (p.Known layouts) ∧ (t.top = false → t.ret? = some r.context.ret) ∧
      Stmt.AllTyped t r.stmts ∧ Stmt.AllValid r.stmts := by
  obtain ⟨b, hb, hstmts, hc⟩ := Program.routine_isFor hr
  have hdelivers : ∀ t : Typing.Context, t.globals = globals → t.hierarchy = globals.hierarchy →
      t.env = tables globals b.chain → r.context.Delivers t (p.Known layouts) :=
    fun t hglobals hhier henv =>
      ⟨hc.serves hp hlayouts hb hglobals henv,
        hc.bareConstructors hp hover hlayouts hb hglobals henv, hhier ▸ htree,
        fun _ _ _ h => hp.receives hover htree hlayouts hglobals h⟩
  have hvalid : Stmt.AllValid r.stmts := hstmts ▸ hp.body_valid hb
  rcases List.mem_cons.1 hr with rfl | hr
  · refine ⟨.ofGlobals globals, hdelivers _ rfl rfl ?_, fun htop => (by cases htop), hp.typed.2,
      hvalid⟩
    rw [← hc.chain]
    exact tables_main.symm
  · obtain ⟨s, hs, rfl⟩ := List.mem_map.1 hr
    obtain ⟨outer, env, hn⟩ := (Program.mem_frames_iff globals).1 hs
    obtain ⟨t, hglobals, hhier, henv, htyped⟩ := hn.typed hp.declared hp.typed
    refine ⟨t.enter (s.defn.scope globals.entries.value? outer), hdelivers _ hglobals hhier ?_,
      fun _ => ?_, htyped.body, hvalid⟩
    · rw [← hc.chain]
      show _ = tables globals s.chain
      rw [hn.tables_chain hp.declared]
      simp only [Typing.Context.enter, henv, FuncDef.scope_entries]
    · show (s.defn.scope globals.entries.value? outer).entries.value? returnEntry = _
      rw [FuncDef.scope_entries]
      refine Bindings.value?_eq_some_iff.2
        ((hn.declared hp.declared).get?_of_mem (hn.valid hp.valid) ?_)
      simp [FuncDef.table, FuncDef.values, Routine.ofSite]

/-! ### Initial values -/

/-- A global variable in the data section. -/
def Codegen.globalWord (d : VarDef) : Emit Unit := do
  items [.globalLabel (globalLabel d.name)]
  literalWord d.value.value d.ty (txt "global " ++ d.name)

theorem Codegen.emitGlobals_contains : ∀ {ds : List TopDecl},
    (∀ d, .var d ∈ ds → globals.entries.value? d.name = some d.ty) →
    ∀ d, .var d ∈ ds → Contains (emitGlobals globals ds) (globalWord d)
  | [], _ => by simp
  | .var d₀ :: ds, hds => by
    have hneed : (globals.entries.lookup d₀.name).bind Entry.value? = some d₀.ty :=
      hds d₀ List.mem_cons_self
    have hrest := emitGlobals_contains fun d hd => hds d (List.mem_cons_of_mem _ hd)
    intro d hd
    unfold emitGlobals
    rw [hneed, need_some, pure_bind]
    rcases List.mem_cons.1 hd with heq | hd
    · cases heq
      rw [← bind_assoc]
      exact .left (.refl _)
    · exact .right fun _ => .right fun _ => hrest d hd
  | .func _ :: ds, hds | .cls _ :: ds, hds => by
    have hrest := emitGlobals_contains fun d hd => hds d (List.mem_cons_of_mem _ hd)
    intro d hd
    unfold emitGlobals
    refine hrest d ?_
    simpa using hd

/-- The word of a global variable has its place in the listing. -/
theorem Program.Accepted.global_initial (hp : p.Accepted globals) (htree : globals.hierarchy.Tree)
    {listing : List Item} {s : EmitState}
    (h : emitProgram globals layouts p {} = .ok ((), listing, s)) {d : VarDef}
    (hd : .var d ∈ p.decls) : (Typing.litType d.value.value).GoesInto d.ty ∧
      ∃ before i after, listing = before ++ [.globalLabel (globalLabel d.name), i] ++ after ∧
        Initial s.pool d.ty d.value.value i := by
  have hvalue : ∀ d, .var d ∈ p.decls → globals.entries.value? d.name = some d.ty :=
    fun d hd => hp.declared.value?_iff.2 ⟨d, hd, rfl, rfl⟩
  have hcompat := (hp.typed.1 _ hd : d.Typed globals.hierarchy globals.entries).2 _ (hvalue d hd)
  refine ⟨Lit.goesInto_of_isCompatible htree hcompat, ?_⟩
  have hcontains : Contains (emitProgram globals layouts p) (globalWord d) := by
    rw [emitProgram_eq, emitUnits_eq]
    refine .left (.right fun _ => .right fun _ => ?_)
    unfold emitData
    exact .right fun _ => .right fun _ => .right fun _ => emitGlobals_contains hvalue d hd
  obtain ⟨before, s₁, own, s₂, after, hown, rfl, hpool⟩ := hcontains _ _ _ _ h
  obtain ⟨_, _, _, _, hlabel, hword, rfl⟩ := bind_ok.1 hown
  obtain ⟨rfl, rfl⟩ := items_ok.1 hlabel
  obtain ⟨_, word, _, hword', -, i, rfl, hi⟩ :=
    literalWord_initial (Lit.suits_of_isCompatible htree hcompat) (txt "global " ++ d.name) s₁
  cases hword.symm.trans hword'
  exact ⟨before, i, after, rfl, hi.within hpool⟩

/-- Every attribute of a layout is declared with a value for its type. -/
theorem Program.Accepted.attr_goesInto (hp : p.Accepted globals) (htree : globals.hierarchy.Tree)
    (h : p.layouts globals = .ok layouts) {l : ClassLayout} (hl : l ∈ layouts) {a : Attribute}
    (ha : a ∈ l.attrs) : (Typing.litType a.value).GoesInto a.type where
  raw := hp.attr_suits htree h hl a ha
  elems _ _ hlit := by
    cases hvalue : a.value <;> rw [hvalue] at hlit <;> cases hlit

/-! ### Accepted programs -/

/-- The code of `x` stands in the body of the routine, and its constants are in the pool. -/
def Routine.Holds (r : Routine) (listing : List Item) (pool : Pool) (x : Emit Unit) : Prop :=
  ∃ before ahead own rest after s s',
    listing = before ++ r.entry ++ ahead ++ own ++ rest ++ r.exit ++ after ∧
      x s = .ok ((), own, s') ∧ s'.pool.Within pool

theorem Program.Accepted.holds (hp : p.Accepted globals) {listing : List Item} {s : EmitState}
    (h : emitProgram globals layouts p {} = .ok ((), listing, s)) {r : Routine}
    (hr : r ∈ p.routines globals layouts) {x : Emit Unit}
    (hx : Contains (Stmt.genAll r.context 0 r.stmts) x) : r.Holds listing s.pool x := by
  obtain ⟨before, body, after, s₁, s₂, hbody, rfl, hpool⟩ := hp.emit_routine h hr
  obtain ⟨init, _, code, -, hcode, rfl⟩ := r.body_ok hbody
  obtain ⟨ahead, s₃, own, s₄, rest, hown, rfl, hkept⟩ := hx _ _ _ _ hcode
  exact ⟨before, init ++ ahead, own, rest ++ r.close, after, s₃, s₄, by simp, hown,
    hkept.trans hpool⟩

/-- The code of a function in the listing: its variables begin with their values, and at the end of
its body the word of `None` is the result as it is, or else control never comes there. -/
def FrameSite.Finishes (site : FrameSite) (globals : Scope) (layouts : List ClassLayout)
    (listing : List Item) (pool : Pool) : Prop :=
  let r := Routine.ofSite globals layouts site
  let finish := implicitReturn :: .label site.frame.epilogue (txt "epilogue") :: r.exit
  ∃ before inits stmts after, listing = before ++ (r.entry ++ inits ++ stmts ++ finish) ++ after ∧
    InitsCode r.context pool site.defn.decls inits ∧
    (Stmt.genAll r.context 0 r.stmts).Produces stmts ∧
    (Converts (some .noneType) (some r.context.ret) [] ∨
      ¬ Reached (r.entry ++ inits ++ stmts ++ finish) finish)

theorem Program.Accepted.finishes (hp : p.Accepted globals) (htree : globals.hierarchy.Tree)
    (hdeclare : p.declare = ⟨globals, []⟩) {listing : List Item} {s : EmitState}
    (h : emitProgram globals layouts p {} = .ok ((), listing, s)) {site : FrameSite}
    (hsite : site ∈ p.frames) : site.Finishes globals layouts listing s.pool := by
  obtain ⟨outer, env, hn⟩ := (Program.mem_frames_iff globals).1 hsite
  obtain ⟨t, -, hhier, -, htyped⟩ := hn.typed hp.declared hp.typed
  have hr : Routine.ofSite globals layouts site ∈ p.routines globals layouts :=
    List.mem_cons_of_mem _ (List.mem_map.2 ⟨site, hsite, rfl⟩)
  obtain ⟨before, body, after, s₁, s₂, hbody, rfl, hpool⟩ := hp.emit_routine h hr
  obtain ⟨inits, s₃, stmts, hinits, hstmts, rfl⟩ := Routine.body_ok hbody
  have hcode : emitFunction globals layouts site s₁ = .ok ((), _, s₂) :=
    hn.emitFunction_eq hp ▸ Routine.emit_of_body hbody
  -- the end of the body and the exit are one piece of code for the paths through the function
  have hfinish : (Routine.ofSite globals layouts site).close ++
      (Routine.ofSite globals layouts site).exit = implicitReturn ::
        .label site.frame.epilogue (txt "epilogue") :: (Routine.ofSite globals layouts site).exit :=
    rfl
  refine ⟨before, inits, stmts, after, by simp [← hfinish], ?_, ⟨_, _, hstmts⟩, ?_⟩
  · rw [Routine.ofSite, hn.descend? hp.declared, need_some, pure_bind] at hinits
    refine (initLocals_initsCode htree (fun d hd => ⟨hhier ▸ htyped.decls.var hd, ?_⟩) _ _ _ _
      hinits).within ((Keeps.within hstmts).trans hpool)
    rw [FuncDef.scope_entries]
    exact Bindings.value?_eq_some_iff.2 ((hn.declared hp.declared).get?_of_mem
      (hn.valid hp.valid) (mem_table_decl hd rfl))
  · cases hraw : site.defn.ty.ret.isUnboxed with
    | false => exact .inl (converts_none hraw)
    | true =>
      have hspecial : site.defn.ty.ret.isSpecial = true := by
        rcases Ty.isUnboxed_iff.1 hraw with hret | hret <;> rw [hret] <;> decide
      have hreached := (emitFunction_sealed (Program.alwaysReturns hdeclare hsite hspecial) hcode).2
      refine .inr ?_
      simpa only [← hfinish, List.append_assoc] using hreached

/-- What a statement of a routine delivers and what the expressions in it deliver is consistent. -/
theorem Program.Accepted.statement_delivered (hp : p.Accepted globals)
    (hover : p.Overrides globals) (htree : globals.hierarchy.Tree)
    (hlayouts : p.layouts globals = .ok layouts) {listing : List Item} {s : EmitState}
    (h : emitProgram globals layouts p {} = .ok ((), listing, s)) {r : Routine}
    (hr : r ∈ p.routines globals layouts) {u : Stmt} (hu : u ∈ Stmt.allNested r.stmts) :
    (∃ k, r.Holds listing s.pool (u.gen r.context k)) ∧
      (∀ k s s' own, u.gen r.context k s = .ok ((), own, s') →
        u.SiteCode r.context s'.pool k own) ∧
      ∀ e ∈ u.sites, r.Holds listing s.pool (e.gen r.context) ∧
        ∀ s s' own, e.gen r.context s = .ok ((), own, s') → e.SiteCode r.context s'.pool own := by
  obtain ⟨t, hdelivers, hret, htyped, hvalid⟩ := hp.routine_typed hover htree hlayouts hr
  obtain ⟨hu', -, k, hcode⟩ := Stmt.AllTyped.nested_inside (c := r.context) 0 htyped hvalid u hu
  refine ⟨⟨k, hp.holds h hr hcode⟩,
    fun k s s' own hown => Stmt.gen_siteCode hdelivers hret hu' k s _ _ _ hown, fun e he => ?_⟩
  have hinside := Stmt.AllTyped.inside hdelivers.bare 0 htyped hvalid hu e he
  exact ⟨hp.holds h hr hinside.code, fun s s' own hown =>
    Expr.gen_siteCode hdelivers hinside.typed hinside.valid (Stmt.isSite_of_mem_sites e he)
      _ _ _ hown⟩

/-- In the listing of an accepted program every value goes into a place for values of its type: what
is in a place for raw words has the type of the place, lists are delivered as lists with the same
representation of elements, and the code makes an object of a raw word exactly where the place is
none for raw words, right before what takes it to its place. -/
theorem deliveries_consistent {source : Bytes} (h : Accepts source globals p) :
    ∃ layouts listing front pool, p.layouts globals = .ok layouts ∧
      p.items globals = .ok listing ∧ listing = front ++ pool.items headers ∧
      (∀ d, .var d ∈ p.decls → (Typing.litType d.value.value).GoesInto d.ty ∧
        ∃ before i after, listing = before ++ [.globalLabel (globalLabel d.name), i] ++ after ∧
          Initial pool d.ty d.value.value i) ∧
      (∀ l ∈ layouts, ∃ body, HasObject listing l.prototypeLabel body ∧
        ∀ k a, l.attrs[k]? = some a → (Typing.litType a.value).GoesInto a.type ∧
          ∃ i, body[headerWords + k]? = some i ∧ Initial pool a.type a.value i) ∧
      (∀ site ∈ p.frames, site.Finishes globals layouts listing pool) ∧
      ∀ r ∈ p.routines globals layouts, ∀ u ∈ Stmt.allNested r.stmts,
        (∃ k, r.Holds listing pool (u.gen r.context k)) ∧
        (∀ k s s' own, u.gen r.context k s = .ok ((), own, s') →
          u.SiteCode r.context s'.pool k own) ∧
        ∀ e ∈ u.sites, r.Holds listing pool (e.gen r.context) ∧
          ∀ s s' own, e.gen r.context s = .ok ((), own, s') → e.SiteCode r.context s'.pool own := by
  have hp := h.accepted
  have hover := h.overrides
  have htree := h.tree
  obtain ⟨layouts, hlayouts, -⟩ := hp.layouts
  obtain ⟨text, data, s, hprogram, -, hprototypes, -⟩ := hp.items_split htree hlayouts
  refine ⟨layouts, _, text ++ .section_ .data :: data, s.pool, hlayouts, ?_, by simp,
    fun d hd => hp.global_initial htree hprogram hd, fun l hl => ?_,
    fun site hsite => hp.finishes htree h.analyzed.2.1 hprogram hsite,
    fun r hr u hu => hp.statement_delivered hover htree hlayouts hprogram hr hu⟩
  · have heq : p.items globals =
        (emitProgram globals layouts p {} >>= fun r => pure r.2.1) := by
      rw [Program.items, hlayouts]
      rfl
    rw [heq, hprogram]
    rfl
  · obtain ⟨body, hobject, hbody⟩ := hprototypes l hl
    have hat := hobject.append_left (text ++ [.section_ .data])
    rw [List.append_assoc] at hat
    refine ⟨body, hat, fun k a ha => ⟨?_, hbody.attrs k a ha⟩⟩
    exact hp.attr_goesInto htree hlayouts hl (List.mem_of_getElem? ha)

/-- An `int` goes into a variable for any object. -/
def boxedAssignment : Bytes := txt "x:object = None\nx = 1\n"

/-- An assignment of an `int` to one place for any object. -/
def Stmt.isBoxing : Stmt → Bool
  | .assign _ [target] value => value.type? = some .int && target.type? = some .object
  | _ => false

/-- The assigned number becomes an object, which is stored at once. -/
theorem boxedAssignment_consistent : ∃ globals p listing, Accepts boxedAssignment globals p ∧
    p.items globals = .ok listing ∧
    ∃ (c : Context) (target : Expr) (before word store after : List Item) (text : Bytes),
      target.StoreCode c store ∧
      listing = before ++ (word ++ [.instr (.jal (txt "makeint")) text] ++ store) ++ after := by
  have hrun : (accepted? boxedAssignment).any (fun r => r.2.body.any Stmt.isBoxing) = true := by
    decide +kernel
  obtain ⟨⟨globals, p⟩, hr, hbody⟩ := (Option.any_eq_true _ _).1 hrun
  obtain ⟨u, hu, hboxing⟩ := List.any_eq_true.1 hbody
  obtain ⟨layouts, listing, _, pool, -, hitems, -, -, -, -, hroutines⟩ :=
    deliveries_consistent (accepts_of_accepted? hr)
  obtain ⟨⟨k, before, ahead, own, rest, after, s, s', hlisting, hown, -⟩, hsite, -⟩ :=
    hroutines (.main globals layouts p) List.mem_cons_self u (Stmt.mem_allNested hu)
  unfold Stmt.isBoxing at hboxing
  split at hboxing
  · rename_i loc target value
    obtain ⟨hvalue, htarget⟩ : value.type? = some .int ∧ target.type? = some .object := by
      simpa using hboxing
    cases hsite k s s' own hown with
    | assignAll hlength => exact absurd rfl hlength
    | @assign _ _ _ word conv store _ hconv hstore =>
      obtain ⟨v, t, hv, ht, -, hconversion⟩ := hconv
      obtain rfl : Ty.int = v := Option.some.inj (hvalue.symm.trans hv)
      obtain rfl : Ty.object = t := Option.some.inj (htarget.symm.trans ht)
      cases hconversion with
      | unchanged h => exact absurd h (by decide)
      | @routine l text _ hl =>
        obtain rfl : txt "makeint" = l := Option.some.inj hl
        refine ⟨globals, p, listing, accepts_of_accepted? hr, hitems, _, target,
          before ++ (Routine.main globals layouts p).entry ++ ahead, word, store,
          rest ++ (Routine.main globals layouts p).exit ++ after, text, hstore, ?_⟩
        simpa only [List.append_assoc] using hlisting
  · cases hboxing

end ChocoRv
