import ChocoRv.Proofs.ArgumentPassing
import ChocoRv.Proofs.Callees

/-!
# The calling convention

A call pushes a static link and the arguments; at the entry of the callee they lie where its frame
has them, and afterwards the call takes back what it has pushed. The number of words comes from the
call and the offsets come from the frame of the function that runs, which for a method is found in
the dispatch table of the object.
-/

namespace ChocoRv

open Asm Codegen Emit Rv32

/-! ### The code of a call at run time -/

/-- The code of an argument keeps to its part of the stack. -/
theorem Expr.HasCode.evaluable {c : Context} {e : Expr} {code : List Item} (h : e.HasCode c code) :
    Evaluable code := by
  obtain ⟨target, s, s', h⟩ := h
  let lev : Label → Int → Prop := fun l d => l ∈ errorLabels ∨ (l, d) ∈ levels 0 code
  have herr : ErrorsLeave lev := fun l hl _ _ => .inl hl
  have hmoves : Asm.Moves lev 0 code 0 :=
    asType_steady (e.gen_steady herr c) target 0 (Int.le_refl 0) _ _ _ _ h
  have hnumbered := asType_numbers (e.gen_numbers c) target _ _ _ _ h
  have hlast : ∀ l ∈ errorLabels, l.getLast?.all Byte.isDigit = false := by decide
  exact ⟨hmoves.disciplined (fun x hx => .inr hx) (fun _ _ _ hd => hd) hnumbered.nodup
      fun l hl => hnumbered.notMem (hlast l hl),
    asType_writesStack (e.gen_writesStack c) target _ _ _ _ h⟩

theorem Codegen.Context.HasLink.isWalk {c : Context} {depth : Nat} {link : List Item}
    (h : c.HasLink depth link) : Asm.Every Instr.isWalk link := by
  obtain ⟨s, s', h⟩ := h
  exact frameWalk_isWalk c _ _ _ _ _ h

theorem evaluable_nil : Evaluable [] := by
  refine ⟨⟨by simp, by simp, by simp, fun n => ?_, rfl, by simp, by simp, by simp⟩, ?_⟩
  · simp [displacement]
  · exact fun i c hi => absurd hi List.not_mem_nil

namespace Expr.CallCode

variable {c : Context} {e : Expr} {before after : List Item} {k : CallParts}

theorem link_isWalk (h : e.CallCode c before k after) : Asm.Every Instr.isWalk k.link := by
  cases h with
  | func _ hlink | constructor _ _ _ hlink | method _ _ hlink => exact hlink.isWalk

theorem args_evaluable (h : e.CallCode c before k after) : ∀ a ∈ k.args, Evaluable a.1 := by
  have hall : ∀ {es : List Expr} {as : List (List Item × Bytes)},
      List.Forall₂ (fun e a => e.HasCode c a.1) es as → ∀ a ∈ as, Evaluable a.1 := fun h =>
    forall_right_of_forall₂ (h.imp fun _ _ hcode => hcode.evaluable)
  cases h with
  | func _ _ hargs | method _ _ _ hargs => exact hall hargs
  | constructor _ _ _ _ hargs =>
    rw [hargs, List.forall_mem_singleton]
    exact evaluable_nil

/-- On the way to the callee the stack stays as it is. -/
theorem transfer_keeps (h : e.CallCode c before k after) {i : Instr} {text : Bytes}
    (hi : .instr i text ∈ k.transfer) : i.isSilent = true ∧ i.dest? ≠ some .sp := by
  have hdispatch : ∀ {o text' i text}, .instr i text ∈ dispatchCode o text' →
      i.isSilent = true ∧ i.dest? ≠ some .sp := by
    intro o text' i text hi
    simp only [dispatchCode, List.mem_cons, List.not_mem_nil, or_false, Item.instr.injEq] at hi
    rcases hi with ⟨rfl, -⟩ | ⟨rfl, -⟩ | ⟨rfl, -⟩ <;> exact ⟨rfl, by simp [Instr.dest?]⟩
  cases h with
  | func _ _ _ htransfer =>
    rw [htransfer] at hi
    cases List.mem_singleton.1 hi
    exact ⟨rfl, by simp [Instr.dest?]⟩
  | constructor _ _ _ _ _ htransfer => exact hdispatch (htransfer ▸ hi)
  | method _ _ _ _ htransfer =>
    rw [htransfer] at hi
    rcases List.mem_append.1 hi with hi | hi
    · simp only [List.mem_cons, List.not_mem_nil, or_false, Item.instr.injEq] at hi
      rcases hi with ⟨rfl, -⟩ | ⟨rfl, -⟩ <;> exact ⟨rfl, by simp [Instr.dest?]⟩
    · exact hdispatch hi

end Expr.CallCode

/-- What the code of the call `e` has done when it goes to the callee, and what follows. -/
structure CallParts.Delivered (img : Image) (c : Context) (e : Expr) (k : CallParts) (n : Nat)
    (s s' : State) (outer : Word) (ws : List Word) : Prop
    extends CallParts.Pushed n s s' outer ws where
  /-- A constructor gets the new object. -/
  object : e.Constructs c → ws = [s.get .a0]
  /-- A method call checks its first argument. -/
  self : ∀ m m' object id args, e = .methodCall m m' object id args → ∃ i c rest w,
    k.transfer = .instr i c :: .instr (.branchZero .beqz .a0 errorNone) [] :: rest ∧
      ws.head? = some w ∧ img.effect s' i = some (s'.set .a0 w)
  /-- On the way to the callee the stack stays as it is. -/
  transfer : ∀ i c, .instr i c ∈ k.transfer → ∀ (q : Nat) (st : State) (cfg : Rv32.Config),
    img.exec q st i = some cfg → cfg.state.get .sp = st.get .sp ∧ cfg.state.mem = st.mem
  /-- A function with `n` parameters finds in its frame what was pushed. -/
  entry : ∀ (globals : Scope) (layouts : List ClassLayout) (t : FrameSite),
    t.frame.params.length = n → ∀ s₁ : State, s₁.get .sp = s'.get .sp → s₁.mem = s'.mem →
      ∃ s₂, img.effects s₁ ((Routine.ofSite globals layouts t).entry.drop 2) = some s₂ ∧
        s₂.get .fp = s'.get .sp ∧ t.frame.Receives s₂ outer ws
  /-- After the call the stack is as it was before. -/
  release : ∀ s₁ : State, s₁.get .sp = s'.get .sp →
    ∃ s₂, img.effects s₁ k.release = some s₂ ∧ s₂.get .sp = s.get .sp

section
variable {img : Image} {s s' : State} {n : Nat} {link : Word} {ws : List Word}

theorem CallParts.Pushed.place (h : CallParts.Pushed n s s' link ws) {j : Nat} (hj : j ≤ n) :
    Aligned (s'.get .sp + BitVec.ofInt 32 (wordSize * (j : Int))) ∧
      (s'.get .sp).toNat ≤ (s'.get .sp + BitVec.ofInt 32 (wordSize * (j : Int))).toNat ∧
      (s'.get .sp + BitVec.ofInt 32 (wordSize * (j : Int))).toNat < (s.get .sp).toNat := by
  have hlt := (s.get .sp).isLt
  have htotal := h.sp
  have haligned := h.aligned
  rw [wordSize_eq]
  have hnat := toNat_add_ofInt (a := s'.get .sp) (z := 4 * (j : Int)) (by omega) (by omega)
  unfold Aligned at haligned ⊢
  omega

/-- The words of a call where the frame of the callee has them. -/
theorem CallParts.Pushed.receives (h : CallParts.Pushed n s s' link ws) (globals : Scope)
    (layouts : List ClassLayout) {t : FrameSite} (ht : t.frame.params.length = n) {s₁ : State}
    (hsp : s₁.get .sp = s'.get .sp) (hmem : s₁.mem = s'.mem) :
    ∃ s₂, img.effects s₁ ((Routine.ofSite globals layouts t).entry.drop 2) = some s₂ ∧
      s₂.get .fp = s'.get .sp ∧ t.frame.Receives s₂ link ws := by
  obtain ⟨s₂, heffects, hfp, hwords⟩ := entry_effects img globals layouts t
    (s := s₁) (hsp ▸ h.aligned) (hsp ▸ h.room)
  rw [hsp] at hfp hwords
  have hword : ∀ j : Nat, j ≤ n →
      s₂.mem.word (s'.get .sp + BitVec.ofInt 32 (wordSize * (j : Int))) =
        s'.mem.word (s'.get .sp + BitVec.ofInt 32 (wordSize * (j : Int))) := by
    intro j hj
    rw [← hmem]
    obtain ⟨haligned, hle, hlt⟩ := h.place hj
    exact hwords _ _ haligned hle hlt
  refine ⟨s₂, heffects, hfp, h.count.trans ht.symm, fun i w hi => ?_, ?_⟩
  · have hlt : i < n := h.count ▸ (List.getElem?_eq_some_iff.1 hi).1
    have hplace : (n - 1 - i : Int) = ((n - 1 - i : Nat) : Int) := by omega
    have hargs := h.args i w hi
    rw [hplace] at hargs
    rw [hfp, Frame.paramOffset, ht, hplace, hword _ (by omega)]
    exact hargs
  · rw [hfp, Frame.staticLink, ht, hword n (Nat.le_refl n)]
    exact h.link

/-- The code of a constructor call evaluates nothing before it pushes `a0`. -/
theorem CallParts.Runs.self {k : CallParts} {m : Nat} (h : k.Runs img m s s' link ws)
    (hlink : Asm.Every Instr.isWalk k.link) (hsp : Aligned (s.get .sp)) {text : Bytes}
    (hargs : k.args = [([], text)]) : ws = [s.get .a0] := by
  obtain ⟨s₁, s₂, heffects, -, hpush, hpushes⟩ := h
  have hregs := (effects_isWalk hlink heffects).1
  have haligned : Aligned (s₁.get .sp) := hregs .sp (by decide) ▸ hsp
  cases (effects_pushCode img (by decide) haligned _).symm.trans hpush
  rw [hargs] at hpushes
  cases hpushes with
  | @cons _ _ _ _ _ s₃ _ _ heval _ hrest =>
    cases hrest
    have hstay : s₃ = Rv32.pushed s₁ .t0 := by
      cases heval.cases_head with
      | inl h => exact (congrArg Rv32.Config.state h).symm
      | inr h =>
        obtain ⟨_, ⟨hstep, -⟩, -⟩ := h
        generalize hcfg : (Rv32.Config.mk _ _ : Rv32.Config) = cfg at hstep
        cases hstep with
        | call hn | step hn => cases hn
    rw [hstay, get_pushed_of_ne _ _ (by decide), hregs .a0 (by decide)]

theorem exists_target {l : Label} (h : l ∈ defined img.code) : ∃ m, img.target l = .at m := by
  obtain ⟨item, hitem, hdef⟩ := List.mem_filterMap.1 h
  have hsome : (img.code.findIdx? (·.defines? == some l)).isSome := by
    rw [List.findIdx?_isSome, List.any_eq_true]
    exact ⟨item, hitem, beq_iff_eq.2 hdef⟩
  obtain ⟨m, hm⟩ := Option.isSome_iff_exists.1 hsome
  exact ⟨m, by rw [Image.target, hm]⟩

theorem Expr.CallCode.delivered {c : Context} {e : Expr} {before after : List Item} {k : CallParts}
    (h : e.CallCode c before k after)
    (hjal : ∀ l text, .instr (.jal l) text ∈ k.transfer → l ∈ defined img.code) {m : Nat}
    (hat : img.Holds m k.code) (hnd : (defined img.code).Nodup) (hsp : Aligned (s.get .sp))
    (hroom : k.HasRoom s) (hrun : k.Runs img m s s' link ws) :
    k.Delivered img c e k.args.length s s' link ws := by
  have hpushed := hrun.pushed h.link_isWalk h.args_evaluable hat hnd hsp hroom
  refine ⟨hpushed, ?_, ?_, fun i text hi q st cfg hexec => ?_, ?_, fun s₁ hs₁ => ?_⟩
  · rintro ⟨_, _, _, _, rfl, hnone, -⟩
    have hlink := h.link_isWalk
    cases h with
    | func h => cases hnone.symm.trans h
    | constructor _ _ _ _ hargs => exact hrun.self hlink hsp hargs
  · rintro m₁ m₂ object id args rfl
    cases h with
    | method _ _ _ hargs htransfer =>
      have hlen : k.args.length = args.length + 1 := hargs.length_eq.symm
      obtain ⟨w, ws', rfl⟩ := List.exists_cons_of_length_pos (l := ws) (by
        rw [hpushed.count, hlen]
        exact Nat.succ_pos _)
      refine ⟨_, _, _, w, htransfer, rfl, ?_⟩
      have hplace : ((k.args.length : Nat) - 1 - (0 : Nat) : Int) = (args.length : Int) := by
        rw [hlen]
        omega
      have hword := hpushed.args 0 w rfl
      rw [hplace] at hword
      have haligned := (hpushed.place (j := args.length) (by omega)).1
      rw [Image.effect, Int.natCast_mul, State.load, if_pos haligned, hword]
      rfl
  · obtain ⟨hsilent, hdest⟩ := h.transfer_keeps hi
    refine exec_keeps hsilent hdest (fun l hl => exists_target (hjal l text ?_)) hexec
    rwa [hl] at hi
  · exact fun globals layouts t ht s₁ hsp hmem => hpushed.receives globals layouts ht hsp hmem
  · refine ⟨_, rfl, ?_⟩
    have hback := add_ofInt_mul (a := s'.get .sp) (b := s.get .sp) (n := k.args.length + 1)
      hpushed.sp
    rw [State.get_set_self _ _ _ (by decide), evalOpImm, hs₁, Int.natCast_mul]
    exact hback

end

/-! ### Call sites -/

theorem ClassLayout.mem_of_find? {layouts : List ClassLayout} {x : Name} {l : ClassLayout}
    (h : find? layouts x = some l) : l ∈ layouts :=
  List.mem_reverse.1 (List.mem_of_find?_eq_some h)

section
variable {globals : Scope} {p : Program} {layouts : List ClassLayout} {b : Body} {c : Context}
  {t : Typing.Context} {α : Type} {x : Emit α} {e : Expr}

theorem Codegen.Context.mem_of_layoutOf {o : Option Ty} {l : ClassLayout}
    (h : c.layoutOf o = .ok l) : l ∈ c.layouts := by
  unfold layoutOf at h
  split at h
  · split at h
    · rename_i hfind
      cases h
      exact ClassLayout.mem_of_find? hfind
    · cases h
  all_goals cases h

/-- What runs at a call takes `n` arguments, and the code of the call pushes as many. -/
structure Expr.Agrees (e : Expr) (c : Context) (p : Program) (n : Nat) : Prop where
  enters : ∃ l, e.Enters c l
  takes : ∀ l, e.Enters c l → p.Takes l n
  constructor : e.Constructs c → n = 1
  count : ∀ before k after, e.CallCode c before k after → k.args.length = n
  jump : ∀ before k after, e.CallCode c before k after →
    ∀ l text, .instr (.jal l) text ∈ k.transfer → ∃ t ∈ p.frames, t.frame.label = l

theorem jal_notMem_dispatchCode {o : Int} {text text' : Bytes} {l : Label} :
    Item.instr (.jal l) text ∉ dispatchCode o text' := by
  simp [dispatchCode]

theorem Program.Accepted.agrees_func (hp : p.Accepted globals) {m : Mark} {id : Ident}
    {args : List Expr} {parent : Frame} (h : Frame.resolveFunc? id.name c.chain = some parent)
    {s : FrameSite} (hs : s ∈ p.frames) (hlabel : s.frame.label = parent.childLabel id.name)
    (hlength : s.defn.ty.params.length = args.length) :
    (Expr.call m id args).Agrees c p args.length := by
  refine ⟨⟨_, .func h⟩, fun l hl => ?_, ?_, fun before k after hk => ?_,
    fun before k after hk l text hl => ?_⟩
  · have htakes := hp.takes_frame hs
    rw [hlength, hlabel] at htakes
    cases hl with
    | func h' =>
      cases h.symm.trans h'
      exact htakes
    | constructor h' => cases h.symm.trans h'
  · rintro ⟨_, _, _, _, ⟨⟩, hnone, -⟩
    cases h.symm.trans hnone
  · cases hk with
    | func _ _ hargs => exact hargs.length_eq.symm
    | constructor h' => cases h.symm.trans h'
  · cases hk with
    | func h' _ _ htransfer =>
      cases h.symm.trans h'
      rw [htransfer, List.mem_singleton] at hl
      cases hl
      exact ⟨s, hs, hlabel⟩
    | constructor h' => cases h.symm.trans h'

theorem Program.Accepted.agrees_constructor (hp : p.Accepted globals)
    (hover : p.Overrides globals) (hlayouts : p.layouts globals = .ok layouts) {m : Mark}
    {id : Ident} {args : List Expr} (hnone : Frame.resolveFunc? id.name c.chain = none)
    {layout : ClassLayout} (hlayout : ClassLayout.find? c.layouts id.name = some layout)
    (hmem : layout ∈ layouts) {o : Int} (ho : layout.methodOffset initName = .ok o) :
    (Expr.call m id args).Agrees c p 1 := by
  refine ⟨?_, fun l hl => ?_, fun _ => rfl, fun before k after hk => ?_,
    fun before k after hk l text hl => ?_⟩
  · obtain ⟨l, hl⟩ := ClassLayout.exists_hasAt ho
    exact ⟨l, .constructor hnone hlayout ho hl⟩
  · cases hl with
    | func h => cases hnone.symm.trans h
    | constructor _ hlayout' ho' hl =>
      cases hlayout.symm.trans hlayout'
      exact hp.takes_init hover hlayouts hmem ho' hl
  · cases hk with
    | func h => cases hnone.symm.trans h
    | constructor _ _ _ _ hargs =>
      rw [hargs]
      rfl
  · cases hk with
    | func h => cases hnone.symm.trans h
    | constructor _ _ _ _ _ htransfer =>
      rw [htransfer] at hl
      exact absurd hl jal_notMem_dispatchCode

theorem Codegen.Context.IsFor.isAncestor_iff (hc : c.IsFor globals layouts b)
    (hp : p.Accepted globals) (hlayouts : p.layouts globals = .ok layouts) {x : Name}
    {d : ClassLayout} (hd : d ∈ c.layouts) :
    c.globals.hierarchy.isAncestor (.cls x) (.cls d.name) = true ↔
      x ∈ globals.hierarchy.lineage d.name := by
  rw [hc.globals, Hierarchy.isAncestor_cls
    (hp.class_ne_nil (hp.layout_knows hlayouts (hc.layouts ▸ hd)))]

theorem Program.Accepted.agrees_method (hp : p.Accepted globals) (hover : p.Overrides globals)
    (hlayouts : p.layouts globals = .ok layouts) (hc : c.IsFor globals layouts b) {m m' : Mark}
    {object : Expr} {id : Ident} {args : List Expr} {layout : ClassLayout} {f : FuncTy} {o : Int}
    (hlayout : c.layoutOf object.type? = .ok layout) (ho : layout.methodOffset id.name = .ok o)
    (hmember : globals.member? layout.name id.name = some (.func f))
    (hlength : f.params.length = args.length + 1) :
    (Expr.methodCall m m' object id args).Agrees c p (args.length + 1) := by
  have hmem : layout ∈ c.layouts := Codegen.Context.mem_of_layoutOf hlayout
  have hknows : ∀ d ∈ c.layouts, globals.hierarchy.knows d.name = true := fun d hd =>
    hp.layout_knows hlayouts (hc.layouts ▸ hd)
  refine ⟨?_, fun l hl => ?_, ?_, fun before k after hk => ?_,
    fun before k after hk l text hl => ?_⟩
  · obtain ⟨l, hl⟩ := ClassLayout.exists_hasAt ho
    refine ⟨l, .method hlayout ho hmem ((hc.isAncestor_iff hp hlayouts hmem).2 ?_) hl⟩
    exact hp.self_mem_lineage (hknows layout hmem)
  · cases hl with
    | @method _ _ _ _ _ _ d _ _ hlayout' ho' hd hbelow hl =>
      cases hlayout.symm.trans hlayout'
      rw [← hlength]
      exact hp.takes_slot hover hlayouts (hc.layouts ▸ hmem) (hc.layouts ▸ hd)
        ((hc.isAncestor_iff hp hlayouts hd).1 hbelow) hmember ho' hl
  · rintro ⟨_, _, _, _, ⟨⟩, -⟩
  · cases hk with
    | method _ _ _ hargs => exact hargs.length_eq.symm
  · cases hk with
    | method _ _ _ _ htransfer =>
      rw [htransfer, List.mem_append] at hl
      rcases hl with hl | hl
      · simp at hl
      · exact absurd hl jal_notMem_dispatchCode

/-- Of a call in a body the number of arguments fits every function that the call can enter. -/
theorem Expr.Inside.agrees (h : e.Inside c t x) (hcall : e.isCall = true) (hp : p.Accepted globals)
    (hover : p.Overrides globals) (hlayouts : p.layouts globals = .ok layouts) (hb : b ∈ p.bodies)
    (hc : c.IsFor globals layouts b) (hglobals : t.globals = globals)
    (henv : t.env = tables globals b.chain) : e.Predefined c ∨ ∃ n, e.Agrees c p n := by
  obtain ⟨htyped, hvalid, -⟩ := h
  cases e with
  | call m id args =>
    simp only [Expr.Typed, Expr.Valid] at htyped hvalid
    obtain ⟨-, entry, params, result, hcallee, hfit, -⟩ := htyped
    cases hc.runs hp hover hlayouts hb hglobals henv hvalid.1 hcallee with
    | func h hs hlabel hparams =>
      exact .inr ⟨_, hp.agrees_func h hs hlabel (hparams ▸ hfit.length_eq)⟩
    | constructor hnone hlayout =>
      have hmem := ClassLayout.mem_of_find? hlayout
      rw [hc.layouts] at hmem
      refine .inr ⟨1, ?_⟩
      cases hc.finds hp hlayouts hb hglobals henv hvalid.1 hcallee with
      | func h => cases hnone.symm.trans h
      | constructor _ hlayout' ho =>
        cases hlayout.symm.trans hlayout'
        exact hp.agrees_constructor hover hlayouts hnone hlayout hmem ho
      | builtin _ hlayout' => cases hlayout.symm.trans hlayout'
    | builtin hnone hlayout hl => exact .inl ⟨m, id, args, _, rfl, hnone, hlayout, hl⟩
  | methodCall m m' object id args =>
    simp only [Expr.Typed, Expr.Valid] at htyped hvalid
    obtain ⟨-, -, o, f, ho, hmethod, hfit, -⟩ := htyped
    obtain ⟨cls, hcls, hmember, self, params, hparams⟩ := Typing.method?_eq_some hmethod
    obtain ⟨layout, hlayout, hname, -, hplaces⟩ :=
      (hc.serves hp hlayouts hb hglobals henv).layout o cls hcls
    obtain ⟨place, hplace⟩ := hplaces id.name f hmember
    rw [← ho] at hlayout
    rw [Typing.Context.member?, hglobals, ← hname] at hmember
    rw [hparams, List.tail_cons] at hfit
    refine .inr ⟨_, hp.agrees_method hover hlayouts hc hlayout hplace hmember ?_⟩
    rw [hparams, List.length_cons, hfit.length_eq]
  | lit | name | unary | binary | cond | list | index | member => cases hcall

end

/-! ### Accepted programs -/

theorem Program.Accepted.label_mem_defined {globals : Scope} {p : Program}
    {layouts : List ClassLayout} (hp : p.Accepted globals)
    (hlayouts : p.layouts globals = .ok layouts) {items : List Item}
    (hitems : p.items globals = .ok items) {t : FrameSite} (ht : t ∈ p.frames) :
    t.frame.label ∈ defined items := by
  obtain ⟨before, body, after, _, _, -, rfl⟩ := hp.items_routine hlayouts hitems
    (List.mem_cons_of_mem _ (List.mem_map.2 ⟨t, ht, rfl⟩))
  refine List.mem_filterMap.2 ⟨.globalLabel t.frame.label, ?_, rfl⟩
  simp [Routine.ofSite]

/-- Every call of an accepted program is one of a predefined function, or else it pushes what the
function that it enters takes, and takes it back. -/
theorem calls_agree {source : Bytes} {globals : Scope} {p : Program}
    (h : Accepts source globals p) : ∃ layouts items, p.layouts globals = .ok layouts ∧ p.items globals = .ok items ∧
      ∀ r ∈ p.routines globals layouts, ∀ e ∈ Stmt.allCalls r.stmts,
        (∃ before ahead own rest after s s',
          items = before ++ r.entry ++ ahead ++ own ++ rest ++ r.exit ++ after ∧
            e.gen r.context s = .ok ((), own, s')) ∧
        (e.Predefined r.context ∨ ∃ n, e.Agrees r.context p n ∧
          ∀ start own stop s s', items = start ++ own ++ stop →
            e.gen r.context s = .ok ((), own, s') →
            ∃ before k after, e.CallCode r.context before k after ∧
              own = before ++ k.code ++ after ∧
              ∀ (img : Image) (st st' : State) (link : Word) (ws : List Word),
                img.code = items → Aligned (st.get .sp) → k.HasRoom st →
                k.Runs img (start ++ before).length st st' link ws →
                k.Delivered img r.context e n st st' link ws) := by
  have hp := h.accepted
  have hover := h.overrides
  obtain ⟨layouts, hlayouts, -⟩ := hp.layouts
  obtain ⟨items, hitems, hcomplete⟩ := hp.items_complete
  refine ⟨layouts, items, hlayouts, hitems, fun r hr e he => ?_⟩
  obtain ⟨b, hb, hstmts, hc⟩ := Program.routine_isFor hr
  obtain ⟨t, hglobals, -, henv, hcalls⟩ := hp.call_inside hover hlayouts hb hc
  rw [hstmts] at he
  obtain ⟨hcall, hinside⟩ := hcalls e he
  refine ⟨?_, (hinside.agrees hcall hp hover hlayouts hb hc hglobals henv).imp_right ?_⟩
  · obtain ⟨before, body, after, _, _, hbody, rfl⟩ := hp.items_routine hlayouts hitems hr
    obtain ⟨init, s₁, code, -, hcode, rfl⟩ := r.body_ok hbody
    rw [hstmts] at hcode
    obtain ⟨ahead, s₂, own, s₃, rest, hown, rfl, -⟩ := hinside.code _ _ _ _ hcode
    exact ⟨before, init ++ ahead, own, rest ++ r.close, after, s₂, s₃, by simp, hown⟩
  · rintro ⟨n, hagrees⟩
    refine ⟨n, hagrees, fun start own stop s s' hplace hown => ?_⟩
    obtain ⟨l, hl⟩ := hagrees.enters
    obtain ⟨before, k, after, hk, rfl⟩ := hl.code _ _ _ hown
    refine ⟨before, k, after, hk, rfl, fun img st st' link ws himg hsp hroom hrun => ?_⟩
    have hat : img.Holds (start ++ before).length k.code :=
      ⟨start ++ before, after ++ stop, by simp [himg, hplace], rfl⟩
    rw [← hagrees.count _ _ _ hk]
    refine hk.delivered (fun l text hl => ?_) hat (himg ▸ hcomplete.nodup) hsp hroom hrun
    obtain ⟨t, ht, rfl⟩ := hagrees.jump _ _ _ hk l text hl
    exact himg ▸ hp.label_mem_defined hlayouts hitems ht

/-! ### A call at the top level -/

/-- The static link of a function declared in the frame is the frame itself. -/
theorem Codegen.Context.HasLink.near {c : Context} {link : List Item}
    (h : c.HasLink c.frame.depth link) : link = [.instr (.move .mv .t0 .fp) []] := by
  obtain ⟨_, _, h⟩ := h
  rw [hopsTo, Int.sub_self, frameWalk, if_pos rfl] at h
  exact (items_ok.1 h).1.symm

/-- An integer literal is one instruction, whatever its representation. -/
theorem Expr.HasCode.int {c : Context} {m : Mark} {value : Int} {code : List Item}
    (h : (Expr.lit ⟨m, .int value⟩).HasCode c code) :
    ∃ i text, code = [.instr i text] ∧ ((∃ z, i = .li .a0 z) ∨ ∃ l, i = .la .a0 l) := by
  obtain ⟨target, s, s', h⟩ := h
  revert h
  unfold asType
  split_ifs
  · intro h
    obtain ⟨rfl, -⟩ := items_ok.1 h
    exact ⟨_, _, rfl, .inl ⟨_, rfl⟩⟩
  · intro h
    obtain ⟨_, _, _, _, hconst, hla, rfl⟩ := bind_ok.1 h
    cases hconst
    obtain ⟨rfl, -⟩ := items_ok.1 hla
    exact ⟨_, _, rfl, .inr ⟨_, rfl⟩⟩

/-- The code of a call that passes a literal to a function declared in the frame runs. -/
theorem CallParts.runs_literal {img : Image} {i : Instr} {text comment : Bytes}
    (hi : (∃ z, i = .li .a0 z) ∨ ∃ l, i = .la .a0 l) {k : CallParts} {m : Nat} {s : State}
    (hlink : k.link = [.instr (.move .mv .t0 .fp) []])
    (hargs : k.args = [([.instr i text], comment)])
    (hat : img.Holds m k.code) (hsp : Aligned (s.get .sp)) :
    ∃ s' w, k.Runs img m s s' (s.get .fp) [w] := by
  let s₁ := s.set .t0 (s.get .fp)
  have hsp₁ : s₁.get .sp = s.get .sp := sp_set_of_ne _ (r := .t0) _ (by decide)
  have haligned₁ : Aligned (s₁.get .sp) := hsp₁ ▸ hsp
  have haligned₂ := aligned_sp_pushed haligned₁ .t0
  have hcall : i.isCall = false := by
    rcases hi with ⟨z, rfl⟩ | ⟨l, rfl⟩ <;> rfl
  obtain ⟨w, heffect⟩ : ∃ w, img.effect (Rv32.pushed s₁ .t0) i =
      some ((Rv32.pushed s₁ .t0).set .a0 w) := by
    rcases hi with ⟨z, rfl⟩ | ⟨l, rfl⟩ <;> exact ⟨_, rfl⟩
  have hsp₃ : ((Rv32.pushed s₁ .t0).set .a0 w).get .sp = (Rv32.pushed s₁ .t0).get .sp :=
    sp_set_of_ne _ (r := .a0) _ (by decide)
  have hat' : img.Holds (m + (k.link.length + 2)) [.instr i text] := by
    rw [CallParts.code, hargs, argsCode_cons] at hat
    have hat := hat.left.left.right.left
    rwa [List.length_append] at hat
  have hget := State.get_set_self (Rv32.pushed s₁ .t0) .a0 w (by decide)
  refine ⟨Rv32.pushed ((Rv32.pushed s₁ .t0).set .a0 w) .a0, w, s₁, Rv32.pushed s₁ .t0,
    ?_, ?_, ?_, ?_⟩
  · rw [hlink]
    rfl
  · exact State.get_set_self _ _ _ (by decide)
  · exact effects_pushCode img (by decide) haligned₁ _
  · rw [hargs, ← hget]
    refine .cons (.single ⟨.step (n := 0) rfl ?_ (hat'.step_effect heffect), ?_⟩)
      (effects_pushCode img (by decide) (hsp₃ ▸ haligned₂) _) .nil
    · rintro _ _ ⟨⟩
      exact hcall
    · intro n j c hn hj hjcall
      cases n with
      | zero =>
        cases hj
        exact absurd (hcall.symm.trans hjcall) (by decide)
      | succ n => cases hj

theorem Expr.CallCode.runs_literal {c : Context} {m m' : Mark} {id : Ident} {value : Int}
    {before after : List Item} {k : CallParts} {parent : Frame}
    (h : (Expr.call m id [.lit ⟨m', .int value⟩]).CallCode c before k after)
    (hparent : Frame.resolveFunc? id.name c.chain = some parent)
    (hdepth : parent.depth = c.frame.depth) {s : State} (hsp : Aligned (s.get .sp))
    (hroom : 16 ≤ (s.get .sp).toNat) : k.HasRoom s ∧ ∀ (img : Image) (n : Nat),
      img.Holds n k.code → ∃ s' w, k.Runs img n s s' (s.get .fp) [w] := by
  obtain ⟨link, args, transfer⟩ := k
  cases h with
  | constructor h => cases hparent.symm.trans h
  | func h hlink hargs htransfer =>
    cases hparent.symm.trans h
    obtain rfl : link = _ := Codegen.Context.HasLink.near (hdepth ▸ hlink)
    obtain rfl : transfer = _ := htransfer
    cases hargs with
    | @cons _ a _ _ hcode hargs =>
      cases hargs
      obtain ⟨code, comment⟩ := a
      obtain ⟨i, text, rfl, hi⟩ := hcode.int
      refine ⟨fun n => Int.le_trans ?_ (Int.ofNat_le.2 hroom), fun img n hat =>
        CallParts.runs_literal hi rfl rfl hat hsp⟩
      rcases hi with ⟨z, rfl⟩ | ⟨l, rfl⟩ <;>
        rcases n with _ | _ | _ | _ | _ | _ | _ | _ | n <;>
          simp [CallParts.code, CallParts.release, argsCode, pushCode, displacement, Item.shift,
            Instr.shift, wordSize]

/-- A call of a name with a number. -/
def isNumberCall (x : Name) : Expr → Bool
  | .call _ id [.lit ⟨_, .int _⟩] => id.name = x
  | _ => false

/-- A call at the top level reaches its callee with its argument on the stack. -/
theorem nesting_calls : ∃ globals p, Accepts nesting globals p ∧
    ∃ layouts, ∃ e ∈ Stmt.allCalls p.body, let c := (Routine.main globals layouts p).context
      ∃ l, e.Enters c l ∧ p.Takes l 1 ∧ ∃ img k m st st' link w,
        CallParts.Runs img m k st st' link [w] ∧ k.Delivered img c e 1 st st' link [w] := by
  have hrun : (accepted? nesting).any (fun r =>
      Frame.resolveFunc? (txt "f") [r.2.mainFrame] = some r.2.mainFrame ∧
        (Stmt.allCalls r.2.body).any (isNumberCall (txt "f"))) = true := by
    decide +kernel
  obtain ⟨⟨globals, p⟩, hr, hprop⟩ := (Option.any_eq_true _ _).1 hrun
  obtain ⟨hfunc, hcalls⟩ := of_decide_eq_true hprop
  obtain ⟨e, he, hname⟩ := List.any_eq_true.1 hcalls
  have haccepts := accepts_of_accepted? hr
  obtain ⟨layouts, items, -, -, hagree⟩ := calls_agree haccepts
  obtain ⟨⟨start, ahead, own, rest, stop, s, s', hitems, hgen⟩, hagrees⟩ :=
    hagree (.main globals layouts p) (List.mem_cons_self ..) e he
  refine ⟨globals, p, haccepts, layouts, e, he, ?_⟩
  unfold isNumberCall at hname
  split at hname
  · rename_i m id m' value
    have hchain : Frame.resolveFunc? id.name (Routine.main globals layouts p).context.chain =
        some p.mainFrame := by
      rw [of_decide_eq_true hname]
      exact hfunc
    rcases hagrees with ⟨_, _, _, _, ⟨⟩, hnone, -⟩ | ⟨n, hagrees, hdelivered⟩
    · cases hchain.symm.trans hnone
    obtain ⟨before, k, after, hk, rfl, hdelivered⟩ := hdelivered
      (start ++ (Routine.main globals layouts p).entry ++ ahead) own
      (rest ++ (Routine.main globals layouts p).exit ++ stop) s s' (by simp [hitems]) hgen
    let img : Image := ⟨items, fun _ => 0, fun _ => 0, fun _ => 0, fun _ => .out [], fun _ => none⟩
    let st : State := ⟨fun _ => 4096, fun _ => 0⟩
    have hsp : st.get .sp = 4096 := rfl
    have haligned : Aligned (st.get .sp) := hsp ▸ by decide
    obtain ⟨hroom, hruns⟩ := hk.runs_literal hchain rfl haligned (hsp ▸ by decide)
    obtain ⟨st', w, hruns⟩ := hruns img
      (start ++ (Routine.main globals layouts p).entry ++ ahead ++ before).length
      ⟨_, after ++ rest ++ (Routine.main globals layouts p).exit ++ stop,
        by simp [img, hitems], rfl⟩
    have hdelivered := hdelivered img st st' _ _ rfl haligned hroom hruns
    obtain rfl : 1 = n := hdelivered.count
    exact ⟨_, .func hchain, hagrees.takes _ (.func hchain), img, k, _, st, st', _, w, hruns,
      hdelivered⟩
  · cases hname

end ChocoRv
