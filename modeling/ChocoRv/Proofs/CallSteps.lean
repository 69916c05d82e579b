import ChocoRv.Proofs.CallingConvention
import ChocoRv.Proofs.StaticLinks

/-!
# The steps of calls

What code generation emits makes the steps of `CallStep`: the code of a call, from its parts in
`Expr.CallCode`, pushes the static link and starts the call; where it goes to the callee, `sp` is
the frame pointer that the callee will have; the entry of the callee is the step into it, and its
exit the step back (`calls_step`). So the runs of which the static links are known are those of the
emitted code, where the arguments and the bodies are work and calls of their own.
-/

namespace ChocoRv

open Asm Codegen Emit Rv32

variable {globals : Scope} {p : Program} {layouts : List ClassLayout} {c : Context} {img : Image}
  {stack : List Activation} {a : Activation} {t : FrameSite} {s s' : State}

/-! ### The start of a call -/

/-- What a class provides is a method, if it is a function of the program. -/
theorem Program.Accepted.isSome_class? (hp : p.Accepted globals) {k x : Name} {label : Label}
    {ty : FuncTy} (h : p.Provides globals k x label ty) (ht : t ∈ p.frames)
    (hlabel : t.frame.label = label) : t.frame.class?.isSome = true := by
  obtain ⟨below, k, above, -, -, hk⟩ := h
  cases hk with
  | object => exact absurd hlabel (hp.label_ne_object ht)
  | @method c f hc hf =>
    have hmem := (mem_frames_iff globals).2 ⟨_, _, .method hc hf⟩
    obtain rfl := hp.label_inj ht hmem hlabel
    rfl

/-- A function in a slot of a dispatch table is a method. -/
theorem Program.Accepted.isSome_class?_of_hasAt (hp : p.Accepted globals)
    (hlayouts : p.layouts globals = .ok layouts) {l : ClassLayout} (hl : l ∈ layouts) {x : Name}
    {o : Int} (ho : l.methodOffset x = .ok o) (ht : t ∈ p.frames)
    (hat : l.HasAt o t.frame.label) : t.frame.class?.isSome = true := by
  obtain ⟨label, ty, hslot, hprovides⟩ :=
    hp.layout_slot hlayouts hl (ClassLayout.exists_methodOffset.1 ⟨o, ho⟩)
  cases (hat.slot? ho).symm.trans hslot
  exact hp.isSome_class? hprovides ht rfl

theorem Codegen.Context.HasLink.pushesLink {depth : Nat} {link : List Item}
    (h : c.HasLink depth link)
    (heffects : img.effects s (link ++ pushCode .t0 (txt "static link")) = some s') :
    PushesLink img c depth s s' := by
  obtain ⟨es, es', h⟩ := h
  exact ⟨es, (), _, es', bind_ok.2 ⟨(), link, es', _, h, rfl, rfl⟩, heffects⟩

/-- The code of a call starts it. -/
theorem Expr.CallCode.starts {e : Expr} {before after : List Item} {k : CallParts}
    (h : e.CallCode c before k after) (hp : p.Accepted globals)
    (hlayouts : p.layouts globals = .ok layouts) {b : Body} (hc : c.IsFor globals layouts b)
    (ht : t ∈ p.frames) (henters : e.Enters c t.frame.label) (ha : running stack = some a)
    (hchain : c.chain = a.chain) (hroom : 4 ≤ (s.get .sp).toNat)
    (heffects : img.effects s (k.link ++ pushCode .t0 (txt "static link")) = some s') :
    CallStep p img ⟨stack, s⟩ ⟨.called t s' :: stack, s'⟩ := by
  generalize hlabel : t.frame.label = label at henters
  cases h with
  | func hparent hlink =>
    cases henters with
    | func h =>
      cases hparent.symm.trans h
      exact .func ha hchain (hchain ▸ hparent) ht hlabel hroom (hlink.pushesLink heffects)
    | constructor h => cases hparent.symm.trans h
  | constructor hnone hlayout ho hlink =>
    cases henters with
    | func h => cases hnone.symm.trans h
    | constructor _ hlayout' ho' hat =>
      cases hlayout.symm.trans hlayout'
      cases ho.symm.trans ho'
      have hmem : _ ∈ layouts := hc.layouts ▸ ClassLayout.mem_of_find? hlayout
      exact .method ha hchain ht (hp.isSome_class?_of_hasAt hlayouts hmem ho ht (hlabel ▸ hat))
        hroom (hlink.pushesLink heffects)
  | method hlayout ho hlink =>
    cases henters with
    | @method _ _ _ _ _ _ d _ _ hlayout' ho' hd hbelow hat =>
      cases hlayout.symm.trans hlayout'
      cases ho.symm.trans ho'
      have hmem : _ ∈ layouts := hc.layouts ▸ Codegen.Context.mem_of_layoutOf hlayout
      have hmem' : d ∈ layouts := hc.layouts ▸ hd
      -- the table is that of a class below the one that gives the offset
      have hnames := (hp.layout_kept hlayouts hmem hmem'
        ((hc.isAncestor_iff hp hlayouts hd).1 hbelow)).2
      have ho := ClassLayout.methodOffset_of_isPrefix hnames ho
      exact .method ha hchain ht (hp.isSome_class?_of_hasAt hlayouts hmem' ho ht (hlabel ▸ hat))
        hroom (hlink.pushesLink heffects)

/-! ### Entry and exit -/

theorem aligned_add_ofInt {a : Word} {n : Nat} (h : Aligned a) :
    Aligned (a + BitVec.ofInt 32 (-(4 * n : Nat))) := by
  unfold Aligned at h ⊢
  rw [BitVec.toNat_add, BitVec.toNat_ofInt]
  omega

/-- The entry of the routine is the step into the call on top of the stack, and its exit is the step
back to where the entry was, if the words are still there that the entry has saved. -/
def Routine.Brackets (r : Routine) (p : Program) (img : Image) (a : Activation)
    (stack : List Activation) (s : State) : Prop :=
  ∃ s₁, img.effects s (r.entry.drop 2) = some s₁ ∧
    CallStep p img ⟨a :: stack, s⟩ ⟨{ a with entered := true } :: stack, s₁⟩ ∧
    ∃ restore c, r.exit = restore ++ [.instr (.jr .ra) c] ∧
      ∀ s₂, Calls.Sound p ⟨{ a with entered := true } :: stack, s₂⟩ →
        s₂.mem.word (a.fp - 4) = s₁.mem.word (a.fp - 4) →
        s₂.mem.word (a.fp - 8) = s₁.mem.word (a.fp - 8) →
        ∃ s₃, img.effects s₂ restore = some s₃ ∧
          CallStep p img ⟨{ a with entered := true } :: stack, s₂⟩ ⟨stack, s₃⟩ ∧
          s₃.get .sp = s.get .sp ∧ s₃.get .ra = s.get .ra

namespace Calls.Sound

/-- The entry of a function keeps the static links, and `fp` is what the call has left for it. -/
theorem enters (h : Calls.Sound p ⟨a :: stack, s⟩) (ha : a.entered = false)
    (hsp : s.get .sp = a.fp) (hroom : t.frame.size ≤ (s.get .sp).toNat) :
    CallStep p img ⟨a :: stack, s⟩
      ⟨{ a with entered := true } :: stack, framed s t.frame.size⟩ := by
  have hsize : t.frame.size = 4 * (2 + t.frame.numLocals) := rfl
  have haligned : Aligned (s.get .sp) := h.aligned
  have hlow : (framed s t.frame.size).get .sp = s.get .sp + BitVec.ofInt 32 (-t.frame.size) :=
    sp_framed s _
  refine .enter ha hsp ⟨fun b hb hne => ?_, ?_, fun b hb hne => ?_⟩ (fp_framed s _)
  · exact word_framed_of_le haligned (by omega) (h.linked.parent hb hne).aligned (h.below b hb hne)
  · rw [hlow, hsize]
    exact aligned_add_ofInt haligned
  · have hlt := (s.get .sp).isLt
    have hnat := toNat_add_ofInt (a := s.get .sp) (z := -t.frame.size) (by omega) (by omega)
    have hbelow : (s.get .sp).toNat ≤ b.link.toNat := h.below b hb hne
    rw [hlow]
    omega

/-- A function that is entered goes back to where its entry was. -/
theorem brackets (h : Calls.Sound p ⟨a :: stack, s⟩) (ha : a.entered = false)
    (hsp : s.get .sp = a.fp) (hroom : t.frame.size ≤ (s.get .sp).toNat) :
    (Routine.ofSite globals layouts t).Brackets p img a stack s := by
  have hentry := effects_entry globals layouts t img h.aligned
  obtain ⟨restore, c, hexit, hrestores⟩ := Routine.ofSite_restores globals layouts t
  refine ⟨_, hentry, h.enters ha hsp hroom, restore, c, hexit, fun s₂ h₂ hra hlink => ?_⟩
  have hfp₁ : (framed s t.frame.size).get .fp = a.fp := (fp_framed s _).trans hsp
  have hfp₂ : s₂.get .fp = a.fp := h₂.fp { a with entered := true } rfl
  obtain ⟨s₃, heffects, hsp₃, hfp₃, hra₃, -, hmem₃⟩ := hrestores img s _ s₂ hentry
    (hfp₂.trans hfp₁.symm) (by rw [hfp₂, hfp₁, hra]) (by rw [hfp₂, hfp₁, hlink])
  have hleaves : LeavesLinks stack s₂ s₃ := by
    refine ⟨fun b _ _ => by rw [hmem₃], hsp₃ ▸ h.aligned, fun b hb hne => ?_⟩
    rw [hsp₃]
    exact h.below b (List.mem_cons_of_mem _ hb) hne
  refine ⟨s₃, heffects, .ret rfl hleaves fun b hb => ?_, hsp₃, hra₃⟩
  -- the function that runs again is the one that ran before the entry
  have hrunning : running (a :: stack) = some b := by
    rw [running, List.find?_cons_of_neg (by simp [ha])]
    exact hb
  rw [hfp₃, h.fp b hrunning]

end Calls.Sound

/-! ### Calls of an accepted program -/

/-- A predefined function is none of the program. -/
theorem Expr.Predefined.not_enters {e : Expr} (h : e.Predefined c) (l : Label) : ¬ e.Enters c l := by
  obtain ⟨m, id, args, l', rfl, hnone, hnone', -⟩ := h
  intro henters
  cases henters with
  | func h => cases hnone.symm.trans h
  | constructor _ h => cases hnone'.symm.trans h

/-- What a run of the code of a call has done when it goes to the callee: it has started the call,
with the frame pointer of the function around the callee as its static link, and `sp` is what the
frame pointer of the callee will be. -/
structure CallParts.Started (p : Program) (img : Image) (t : FrameSite) (cs : Calls) (s s' : State)
    (link : Word) : Prop where
  step : CallStep p img cs ⟨.called t s :: cs.stack, s⟩
  link : ∃ b ∈ cs.stack, b.entered = true ∧ b.chain = t.outer ∧ link = b.fp
  sp : s'.get .sp = (Activation.called t s).fp

theorem CallParts.Runs.started {e : Expr} {before after : List Item} {k : CallParts} {cs : Calls}
    {n : Nat} {link : Word} {ws : List Word} (h : k.Runs img n cs.state s' link ws)
    (hk : e.CallCode c before k after) (hp : p.Accepted globals)
    (hlayouts : p.layouts globals = .ok layouts) {b : Body} (hc : c.IsFor globals layouts b)
    (ht : t ∈ p.frames) (henters : e.Enters c t.frame.label)
    (hcount : t.frame.params.length = k.args.length) (hsound : cs.Sound p)
    (ha : running cs.stack = some a) (hchain : c.chain = a.chain) (hat : img.Holds n k.code)
    (hnd : (defined img.code).Nodup) (hroom : k.HasRoom cs.state) :
    ∃ s, CallParts.Started p img t cs s s' link := by
  have hpushed := h.pushed hk.link_isWalk hk.args_evaluable hat hnd hsound.aligned hroom
  obtain ⟨s₁, s₂, heffects, rfl, hpush, -⟩ := h
  have hsp₁ := (effects_isWalk hk.link_isWalk heffects).1 .sp (by decide)
  have haligned : Aligned (s₁.get .sp) := hsp₁ ▸ hsound.aligned
  cases (effects_pushCode img (by decide) haligned _).symm.trans hpush
  have hfour : 4 ≤ (cs.state.get .sp).toNat := by
    have hsp := hpushed.sp
    omega
  have hsp₂ := toNat_sp_pushed (s := s₁) (by rwa [hsp₁]) .t0
  have hstep : CallStep p img cs ⟨.called t (Rv32.pushed s₁ .t0) :: cs.stack, Rv32.pushed s₁ .t0⟩ :=
    hk.starts hp hlayouts hc ht henters ha hchain hfour (by
      rw [Image.effects_append, heffects, Option.bind_some, hpush])
  have hne : t.outer ≠ [] := by
    obtain ⟨outer, env, hn⟩ := (Program.mem_frames_iff globals).1 ht
    exact hn.outer_ne_nil
  refine ⟨_, hstep, ?_, ?_⟩
  · obtain ⟨b, hb, hentered, houter, hword⟩ := ((hstep.sound img hp hsound).linked.1 hne).parent
    rw [Activation.called_link, word_pushed] at hword
    exact ⟨b, hb, hentered, houter, hword⟩
  · have hsp := hpushed.sp
    rw [hsp₁] at hsp₂
    have hfp := Activation.toNat_fp_called (t := t) (s := Rv32.pushed s₁ .t0) (by omega)
    exact BitVec.eq_of_toNat_eq (by omega)

/-- The code of every call and of every function makes the steps of a run of calls and returns. -/
theorem calls_step {source : Bytes} (h : Accepts source globals p) :
    ∃ layouts items, p.layouts globals = .ok layouts ∧ p.items globals = .ok items ∧
      ∀ r ∈ p.routines globals layouts, ∀ e ∈ Stmt.allCalls r.stmts, ∀ before k after,
        e.CallCode r.context before k after → ∀ t ∈ p.frames, e.Enters r.context t.frame.label →
        ∀ (img : Image) (cs : Calls) (a : Activation) (n : Nat) (s' : State) (link : Word)
          (ws : List Word), img.code = items → cs.Sound p → running cs.stack = some a →
          r.context.chain = a.chain → img.Holds n k.code → k.HasRoom cs.state →
          k.Runs img n cs.state s' link ws →
          ∃ s, CallParts.Started p img t cs s s' link ∧
            ∀ s₁ : State, s₁.get .sp = s'.get .sp → t.frame.size ≤ (s₁.get .sp).toNat →
              Calls.Sound p ⟨.called t s :: cs.stack, s₁⟩ →
              (Routine.ofSite globals layouts t).Brackets p img (.called t s) cs.stack s₁ := by
  have hp := h.accepted
  have hover := h.overrides
  obtain ⟨layouts, hlayouts, -⟩ := hp.layouts
  obtain ⟨items, hitems, hcomplete⟩ := hp.items_complete
  refine ⟨layouts, items, hlayouts, hitems, fun r hr e he before k after hk t ht henters img cs a n
    s' link ws himg hsound ha hchain hat hroom hrun => ?_⟩
  obtain ⟨b, hb, hstmts, hc⟩ := Program.routine_isFor hr
  obtain ⟨typing, hglobals, -, henv, hcalls⟩ := hp.call_inside hover hlayouts hb hc
  rw [hstmts] at he
  obtain ⟨hcall, hinside⟩ := hcalls e he
  have hcount : t.frame.params.length = k.args.length := by
    rcases hinside.agrees hcall hp hover hlayouts hb hc hglobals henv with hpre | ⟨m, hagrees⟩
    · exact absurd henters (Expr.Predefined.not_enters hpre _)
    · rw [(hagrees.takes _ henters).count t ht rfl, hagrees.count before k after hk]
  obtain ⟨s, hstarted⟩ := hrun.started hk hp hlayouts hc ht henters hcount hsound ha hchain hat
    (himg ▸ hcomplete.nodup) hroom
  exact ⟨s, hstarted, fun s₁ hsp hsize hsound₁ =>
    hsound₁.brackets rfl (hsp.trans hstarted.sp) hsize⟩

end ChocoRv
