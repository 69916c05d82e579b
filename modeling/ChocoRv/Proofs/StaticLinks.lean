import ChocoRv.Proofs.Emitting
import ChocoRv.Proofs.Labels
import ChocoRv.Proofs.Machine
import ChocoRv.Proofs.ScopeAgreement
import Mathlib.Logic.Relation

/-!
# Static links

A run of calls and returns, seen from the stack: a call pushes the static link of the callee with
the code of `pushStaticLink`, evaluates the arguments, in which other calls may take place, and
enters the callee. In every stack that such a run reaches, the static link of an activation is the
frame pointer of a live activation of the function around it; so a walk along the links ends at the
frame of the owner of a variable.
-/

namespace ChocoRv

open Asm Codegen Rv32

variable {globals : Scope} {p : Program}

/-! ### Chains of frames -/

/-- The frames that a body of the program sees, innermost first. -/
def Program.Chain (p : Program) (chain : List Frame) : Prop := ∃ b ∈ p.bodies, b.chain = chain

theorem Program.chain_iff {chain : List Frame} :
    p.Chain chain ↔ chain = [p.mainFrame] ∨ ∃ s ∈ p.frames, s.chain = chain := by
  simp [Chain, bodies, eq_comm]

theorem Program.Nested.chain_outer {s : FrameSite} {outer : Values} {env : Env}
    (h : p.Nested globals s outer env) : p.Chain s.outer := by
  rw [chain_iff]
  cases h with
  | func | method => exact .inl rfl
  | inner h _ => exact .inr ⟨_, (mem_frames_iff globals).2 ⟨_, _, h⟩, rfl⟩

namespace Program.Chain

variable {f : Frame} {chain rest : List Frame}

theorem tail (h : p.Chain (f :: rest)) (hne : rest ≠ []) : p.Chain rest := by
  rcases chain_iff.1 h with heq | ⟨s, hs, heq⟩
  · exact absurd (List.cons.inj heq).2 hne
  · obtain ⟨outer, env, hn⟩ := (mem_frames_iff Scope.empty).1 hs
    obtain rfl : s.outer = rest := (List.cons.inj heq).2
    exact hn.chain_outer

theorem depth (h : p.Chain (f :: rest)) : f.depth = rest.length := by
  rcases chain_iff.1 h with heq | ⟨s, hs, heq⟩
  · obtain ⟨rfl, rfl⟩ := List.cons.inj heq
    rfl
  · obtain ⟨outer, env, hn⟩ := (mem_frames_iff Scope.empty).1 hs
    obtain ⟨rfl, rfl⟩ := List.cons.inj heq
    exact hn.depth

theorem eq_main (h : p.Chain [f]) : f = p.mainFrame := by
  rcases chain_iff.1 h with heq | ⟨s, hs, heq⟩
  · exact (List.cons.inj heq).1
  · obtain ⟨outer, env, hn⟩ := (mem_frames_iff Scope.empty).1 hs
    exact absurd (List.cons.inj heq).2 hn.outer_ne_nil

/-- What is around the frames of a body is again seen by a body. -/
theorem of_suffix : ∀ {chain : List Frame}, p.Chain chain → f :: rest <:+ chain →
    p.Chain (f :: rest)
  | [], _, hs => absurd (List.eq_nil_of_suffix_nil hs) (List.cons_ne_nil f rest)
  | g :: chain, h, hs => by
    rcases List.suffix_cons_iff.1 hs with heq | hs
    · rwa [heq]
    · have hne : chain ≠ [] := by
        rintro rfl
        exact absurd (List.eq_nil_of_suffix_nil hs) (List.cons_ne_nil f rest)
      exact of_suffix (h.tail hne) hs

/-- Everything is inside the top-level program. -/
theorem main_suffix : ∀ {chain : List Frame}, p.Chain chain → [p.mainFrame] <:+ chain
  | [], h => by
    rcases chain_iff.1 h with heq | ⟨s, -, heq⟩
    · cases heq
    · cases heq
  | [f], h => h.eq_main ▸ List.suffix_refl _
  | f :: g :: chain, h => (main_suffix (h.tail (List.cons_ne_nil g chain))).trans (List.suffix_cons ..)

end Program.Chain

/-- The owner of a variable is among the frames. -/
theorem resolve_suffix {x : Name} {owner : Frame} {offset : Int} : ∀ {chain : List Frame},
    Frame.resolve x chain = .slot owner offset → ∃ rest, owner :: rest <:+ chain
  | [], h => by simp [Frame.resolve] at h
  | f :: outer, h => by
    have hrest : Frame.resolve x outer = .slot owner offset →
        ∃ rest, owner :: rest <:+ f :: outer := fun h' => by
      obtain ⟨rest, hs⟩ := resolve_suffix h'
      exact ⟨rest, hs.trans (List.suffix_cons ..)⟩
    rw [Frame.resolve] at h
    split at h
    · cases h
    · split at h
      · exact hrest h
      · split at h
        · cases h
          exact ⟨outer, List.suffix_refl _⟩
        · exact hrest h

/-- The frame that declares a function is among the frames. -/
theorem resolveFunc?_suffix {x : Name} {parent : Frame} : ∀ {chain : List Frame},
    Frame.resolveFunc? x chain = some parent →
      parent.funcs.contains x = true ∧ ∃ rest, parent :: rest <:+ chain
  | [], h => by simp [Frame.resolveFunc?] at h
  | f :: outer, h => by
    rw [Frame.resolveFunc?] at h
    split at h
    · rename_i hf
      cases h
      exact ⟨hf, outer, List.suffix_refl _⟩
    · split at h
      · cases h
      · obtain ⟨hf, rest, hs⟩ := resolveFunc?_suffix h
        exact ⟨hf, rest, hs.trans (List.suffix_cons ..)⟩

/-- A function that a frame declares stands inside that frame. -/
theorem Program.Chain.outer_eq {parent : Frame} {rest : List Frame} (h : p.Chain (parent :: rest))
    (hp : p.Accepted globals) {x : Name} (hx : parent.funcs.contains x = true) {t : FrameSite}
    (ht : t ∈ p.frames) (hlabel : t.frame.label = parent.childLabel x) :
    t.outer = parent :: rest := by
  obtain ⟨t', ht', hpath, houter⟩ : ∃ t' ∈ p.frames, t'.frame.path = parent.childPath x ∧
      t'.outer = parent :: rest := by
    rcases chain_iff.1 h with heq | ⟨s, hs, heq⟩
    · obtain ⟨rfl, rfl⟩ := List.cons.inj heq
      simp only [mainFrame, List.contains_iff_mem, List.mem_map, List.mem_filterMap,
        TopDecl.func?_eq_some, exists_eq_right] at hx
      obtain ⟨f, hf, rfl⟩ := hx
      exact ⟨_, (mem_frames_iff globals).2 ⟨_, _, .func hf⟩, rfl, rfl⟩
    · obtain ⟨rfl, rfl⟩ := List.cons.inj heq
      obtain ⟨outer, env, hn⟩ := (mem_frames_iff globals).1 hs
      obtain ⟨g, hg, rfl⟩ := (contains_funcs hn.frame_eq).1 hx
      exact ⟨_, (mem_frames_iff globals).2 ⟨_, _, hn.inner hg⟩, rfl, rfl⟩
  have hlabel' : t'.frame.label = parent.childLabel x := by
    rw [Frame.label_eq (hp.plain ht').ne_nil, hpath, Frame.childLabel_eq]
  rw [hp.label_inj ht ht' (hlabel.trans hlabel'.symm), houter]

/-- Methods stand right inside the top-level program. -/
theorem method_outer {t : FrameSite} (ht : t ∈ p.frames) (h : t.frame.class?.isSome) :
    t.outer = [p.mainFrame] := by
  obtain ⟨outer, env, hn⟩ := (Program.mem_frames_iff Scope.empty).1 ht
  cases hn with
  | func => cases h
  | method => rfl
  | inner => cases h

/-! ### Calls and returns -/

/-- A call that has not returned: the frame of the function, the frames around it and its frame
pointer. While its arguments are evaluated the static link is there but the function has not been
entered. -/
structure Activation where
  frame : Frame
  outer : List Frame
  fp : Word
  entered : Bool

namespace Activation

def chain (a : Activation) : List Frame := a.frame :: a.outer

/-- Where the static link stands. -/
def link (a : Activation) : Word := a.fp + BitVec.ofInt 32 a.frame.staticLink

/-- A call whose static link is on top of the stack. The arguments will fill the words down to its
frame pointer. -/
def called (t : FrameSite) (s : State) : Activation :=
  ⟨t.frame, t.outer, s.get .sp - BitVec.ofInt 32 t.frame.staticLink, false⟩

@[simp] theorem called_link (t : FrameSite) (s : State) : (called t s).link = s.get .sp :=
  BitVec.sub_add_cancel _ _

end Activation

/-- The activations, the last one first, and the state of the machine. -/
structure Calls where
  stack : List Activation
  state : State

/-- The activation whose code runs: the last one that was entered. -/
def running (stack : List Activation) : Option Activation := stack.find? (·.entered)

/-- Between the states no static link is written, and the stack pointer stays below them. -/
structure LeavesLinks (stack : List Activation) (s s' : State) : Prop where
  words : ∀ a ∈ stack, a.outer ≠ [] → s'.mem.word a.link = s.mem.word a.link
  aligned : Aligned (s'.get .sp)
  below : ∀ a ∈ stack, a.outer ≠ [] → (s'.get .sp).toNat ≤ a.link.toNat

/-- The code that pushes the static link of a callee takes one state to the other. -/
def PushesLink (img : Image) (c : Context) (depth : Nat) (s s' : State) : Prop :=
  ∃ es, Emit.Ok (pushStaticLink c depth) es fun _ code _ => img.effects s code = some s'

/-- One step of a run of calls and returns. -/
inductive CallStep (p : Program) (img : Image) : Calls → Calls → Prop
  /-- Anything but calls and returns. -/
  | work {stack : List Activation} {s s' : State} (h : LeavesLinks stack s s')
      (hfp : s'.get .fp = s.get .fp) : CallStep p img ⟨stack, s⟩ ⟨stack, s'⟩
  /-- The start of a call by name. -/
  | func {stack : List Activation} {s s' : State} {a : Activation} {c : Context} {x : Name}
      {parent : Frame} {t : FrameSite} (ha : running stack = some a) (hc : c.chain = a.chain)
      (hx : Frame.resolveFunc? x a.chain = some parent) (ht : t ∈ p.frames)
      (hlabel : t.frame.label = parent.childLabel x) (hroom : 4 ≤ (s.get .sp).toNat)
      (hpush : PushesLink img c parent.depth s s') :
    CallStep p img ⟨stack, s⟩ ⟨.called t s' :: stack, s'⟩
  /-- The start of a call through a dispatch table: of a method or of a constructor. -/
  | method {stack : List Activation} {s s' : State} {a : Activation} {c : Context} {t : FrameSite}
      (ha : running stack = some a) (hc : c.chain = a.chain) (ht : t ∈ p.frames)
      (hmethod : t.frame.class?.isSome) (hroom : 4 ≤ (s.get .sp).toNat)
      (hpush : PushesLink img c 0 s s') :
    CallStep p img ⟨stack, s⟩ ⟨.called t s' :: stack, s'⟩
  /-- The jump to a callee and its prologue: the frame pointer becomes the stack pointer. -/
  | enter {stack : List Activation} {s s' : State} {a : Activation} (ha : a.entered = false)
      (hsp : s.get .sp = a.fp) (h : LeavesLinks (a :: stack) s s')
      (hfp : s'.get .fp = s.get .sp) :
    CallStep p img ⟨a :: stack, s⟩ ⟨{ a with entered := true } :: stack, s'⟩
  | ret {stack : List Activation} {s s' : State} {a : Activation} (ha : a.entered = true)
      (h : LeavesLinks stack s s') (hfp : ∀ b, running stack = some b → s'.get .fp = b.fp) :
    CallStep p img ⟨a :: stack, s⟩ ⟨stack, s'⟩

/-- Only the top-level program runs. -/
structure Calls.Starts (p : Program) (cs : Calls) : Prop where
  stack : cs.stack = [⟨p.mainFrame, [], cs.state.get .fp, true⟩]
  aligned : Aligned (cs.state.get .sp)

/-! ### The invariant -/

/-- The static link of an activation leads to one below it that runs the function around. -/
structure Activation.LinksTo (m : Memory) (below : List Activation) (a : Activation) : Prop where
  aligned : Aligned a.link
  parent : ∃ b ∈ below, b.entered = true ∧ b.chain = a.outer ∧ m.word a.link = b.fp

/-- All static links of a stack lead to where they should. -/
def Linked (m : Memory) : List Activation → Prop
  | [] => True
  | a :: below => (a.outer ≠ [] → a.LinksTo m below) ∧ Linked m below

structure Calls.Sound (p : Program) (cs : Calls) : Prop where
  chains : ∀ a ∈ cs.stack, p.Chain a.chain
  linked : Linked cs.state.mem cs.stack
  aligned : Aligned (cs.state.get .sp)
  below : ∀ a ∈ cs.stack, a.outer ≠ [] → (cs.state.get .sp).toNat ≤ a.link.toNat
  fp : ∀ a, running cs.stack = some a → cs.state.get .fp = a.fp

theorem Linked.congr {m m' : Memory} : ∀ {stack : List Activation}, Linked m stack →
    (∀ a ∈ stack, a.outer ≠ [] → m'.word a.link = m.word a.link) → Linked m' stack
  | [], _, _ => trivial
  | a :: below, h, hwords => by
    refine ⟨fun ha => ⟨(h.1 ha).aligned, ?_⟩, ?_⟩
    · obtain ⟨b, hb, hentered, hchain, hword⟩ := (h.1 ha).parent
      exact ⟨b, hb, hentered, hchain, (hwords a (List.mem_cons_self ..) ha).trans hword⟩
    · exact Linked.congr h.2 fun b hb => hwords b (List.mem_cons_of_mem _ hb)

theorem Linked.linksTo {m : Memory} {a : Activation} {above below : List Activation}
    (h : Linked m (above ++ a :: below)) (ha : a.outer ≠ []) : a.LinksTo m below := by
  induction above with
  | nil => exact h.1 ha
  | cons _ above ih => exact ih h.2

theorem Linked.parent {m : Memory} {stack : List Activation} (h : Linked m stack) {a : Activation}
    (ha : a ∈ stack) (hne : a.outer ≠ []) : a.LinksTo m stack := by
  obtain ⟨above, below, rfl⟩ := List.append_of_mem ha
  obtain ⟨haligned, b, hb, hrest⟩ := h.linksTo hne
  exact ⟨haligned, b, List.mem_append_right _ (List.mem_cons_of_mem _ hb), hrest⟩

/-! ### Walks along the links -/

/-- The instruction that follows the static link of a frame. -/
def followLink (f : Frame) : Item := .instr (.load .lw .t0 .t0 f.staticLink) (txt "static link")

/-- The code of a walk along `k` links; the first is that of the frame itself. -/
def walkCode (c : Context) : Nat → List Item
  | 0 => [.instr (.move .mv .t0 .fp) []]
  | k + 1 => .instr (.load .lw .t0 .fp c.frame.staticLink) (txt "static link") ::
      (c.outer.take k).map followLink

theorem items_bind (code more : List Item) :
    (Emit.items code >>= fun _ => Emit.items more) = Emit.items (code ++ more) := rfl

theorem forM_followLink : ∀ fs : List Frame,
    fs.forM (fun f => Emit.lw .t0 .t0 f.staticLink "static link") =
      Emit.items (fs.map followLink)
  | [] => rfl
  | f :: fs => by
    show (Emit.items [followLink f] >>= fun _ => fs.forM _) = _
    rw [forM_followLink fs, items_bind]
    rfl

theorem frameWalk_eq (c : Context) (k : Nat) : frameWalk c k = Emit.items (walkCode c k) := by
  cases k with
  | zero => rfl
  | succ k =>
    have hne : ((k + 1 : Nat) : Int) ≠ 0 := by omega
    have htake : (((k + 1 : Nat) : Int) - 1).toNat = k := by omega
    rw [frameWalk, if_neg hne, htake, forM_followLink, Emit.lw, Emit.instr, items_bind]
    rfl

section
variable (img : Image) {stack : List Activation}

/-- Following links in `t0` leads from one live activation to another. -/
theorem effects_followLink : ∀ {k : Nat} {a : Activation} {s : State}, Linked s.mem stack →
    a ∈ stack → a.entered = true → k < a.chain.length → s.get .t0 = a.fp →
    ∃ b ∈ stack, b.entered = true ∧ b.chain = a.chain.drop k ∧
      img.effects s ((a.chain.take k).map followLink) = some (s.set .t0 b.fp)
  | 0, a, s, _, ha, hentered, _, ht0 => by
    refine ⟨a, ha, hentered, rfl, ?_⟩
    rw [← ht0, State.set_get]
    rfl
  | k + 1, a, s, h, ha, _, hk, ht0 => by
    have hlt : k < a.outer.length := by simpa [Activation.chain] using hk
    have hne : a.outer ≠ [] := List.ne_nil_of_length_pos (by omega)
    obtain ⟨haligned, b, hb, hentered, hchain, hword⟩ := h.parent ha hne
    obtain ⟨b', hb', hentered', hchain', heffects⟩ := effects_followLink (k := k) (a := b)
      (s := s.set .t0 b.fp) (by simpa using h) hb hentered (by rwa [hchain])
      (State.get_set_self _ _ _ (by decide))
    refine ⟨b', hb', hentered', ?_, ?_⟩
    · rw [hchain', hchain]
      rfl
    have hload : s.load (s.get .t0 + BitVec.ofInt 32 a.frame.staticLink) = some b.fp := by
      rw [ht0, ← hword]
      exact if_pos haligned
    rw [State.set_set, hchain] at heffects
    simp only [Activation.chain, List.take_succ_cons, List.map_cons, followLink, Image.effects,
      Image.effect, hload, Option.map_some, Option.bind_some]
    exact heffects

/-- A walk from the running activation ends at a live activation of the frame it leads to. -/
theorem Calls.Sound.walk {cs : Calls} (h : cs.Sound p) {a : Activation} {c : Context} {k : Nat}
    (ha : running cs.stack = some a) (hc : c.chain = a.chain) (hk : k < a.chain.length) :
    ∃ b ∈ cs.stack, b.entered = true ∧ b.chain = a.chain.drop k ∧
      img.effects cs.state (walkCode c k) = some (cs.state.set .t0 b.fp) := by
  have hfp := h.fp a ha
  obtain ⟨b, hb, hentered, hchain, heffects⟩ := effects_followLink img
    (s := cs.state.set .t0 a.fp) (by simpa using h.linked) (List.mem_of_find?_eq_some ha)
    (List.find?_some ha) hk (State.get_set_self _ _ _ (by decide))
  refine ⟨b, hb, hentered, hchain, ?_⟩
  rw [State.set_set] at heffects
  obtain ⟨hframe, houter⟩ := List.cons.inj hc
  -- the first step reads `fp` where the others read `t0`
  cases k with
  | zero =>
    rw [← heffects]
    simp [walkCode, Image.effects, Image.effect, evalMove, hfp]
  | succ k =>
    rw [← heffects, walkCode, hframe, houter]
    simp only [Activation.chain, List.take_succ_cons, List.map_cons, followLink, Image.effects,
      Image.effect, State.get_set_self _ _ _ (show Reg.t0 ≠ .zero by decide), hfp, State.load,
      State.mem_set]
    split
    · simp only [Option.map_some, Option.bind_some, State.set_set]
    · rfl

end

/-- The number of links to a frame around a body, and that many frames further is that frame. -/
theorem hopsTo_eq {c : Context} (h : p.Chain c.chain) {f : Frame} {rest : List Frame}
    (hs : f :: rest <:+ c.chain) :
    ∃ k < c.chain.length, hopsTo c f.depth = k ∧ c.chain.drop k = f :: rest := by
  have hle := hs.length_le
  have hdrop := (List.suffix_iff_eq_drop.1 hs).symm
  have hdepth : f.depth = rest.length := (h.of_suffix hs).depth
  have hdepth' : c.frame.depth = c.outer.length := h.depth
  have hlen : c.chain.length = c.outer.length + 1 := rfl
  rw [List.length_cons] at hle hdrop
  refine ⟨c.chain.length - (rest.length + 1), by omega, ?_, hdrop⟩
  rw [hopsTo, hdepth, hdepth']
  omega

/-! ### What a step does -/

section
variable (img : Image) {cs : Calls} {a : Activation} {c : Context}

theorem pushStaticLink_eq {depth k : Nat} (hk : hopsTo c depth = k) :
    pushStaticLink c depth = Emit.items (walkCode c k ++
      [.instr (.opImm .addi .sp .sp (-4)) [], .instr (.store .sw .t0 .sp 0) (txt "static link")]) := by
  rw [pushStaticLink, hk, frameWalk_eq]
  rfl

/-- Pushing the static link of a function inside `f :: rest` pushes the frame pointer of a live
activation of `f`. -/
theorem Calls.Sound.push (h : cs.Sound p) (ha : running cs.stack = some a)
    (hc : c.chain = a.chain) {f : Frame} {rest : List Frame} (hs : f :: rest <:+ a.chain) :
    ∃ b ∈ cs.stack, b.entered = true ∧ b.chain = f :: rest ∧
      ∀ s', PushesLink img c f.depth cs.state s' ↔ s' = pushed (cs.state.set .t0 b.fp) .t0 := by
  have hchain : p.Chain c.chain := hc ▸ h.chains a (List.mem_of_find?_eq_some ha)
  rw [← hc] at hs
  obtain ⟨k, hk, hhops, hdrop⟩ := hopsTo_eq hchain hs
  rw [hc] at hk hdrop
  obtain ⟨b, hb, hentered, hbchain, heffects⟩ := h.walk img ha hc hk
  refine ⟨b, hb, hentered, hbchain.trans hdrop, fun s' => ?_⟩
  have haligned : Aligned ((cs.state.set .t0 b.fp).get .sp) := by
    rw [sp_set_of_ne _ _ (by decide)]
    exact h.aligned
  have hcode : ∀ s', img.effects cs.state (walkCode c k ++ [.instr (.opImm .addi .sp .sp (-4)) [],
      .instr (.store .sw .t0 .sp 0) (txt "static link")]) = some s' ↔
        s' = pushed (cs.state.set .t0 b.fp) .t0 := fun s' => by
    rw [Image.effects_append, heffects, Option.bind_some, effects_push img (by decide) haligned]
    simp [Image.effects, eq_comm]
  simp only [PushesLink, pushStaticLink_eq hhops, Emit.ok_items, hcode, exists_const_iff]
  exact ⟨fun h => h.2, fun h => ⟨⟨{}⟩, h⟩⟩

/-- The start of a call keeps the invariant. -/
theorem Calls.Sound.called (h : cs.Sound p) (ha : running cs.stack = some a)
    (hc : c.chain = a.chain) {t : FrameSite} (ht : t ∈ p.frames) {f : Frame} {rest : List Frame}
    (houter : t.outer = f :: rest) (hs : f :: rest <:+ a.chain)
    (hroom : 4 ≤ (cs.state.get .sp).toNat) {s' : State}
    (hpush : PushesLink img c f.depth cs.state s') :
    Calls.Sound p ⟨.called t s' :: cs.stack, s'⟩ := by
  obtain ⟨b, hb, hentered, hchain, hiff⟩ := h.push img ha hc hs
  obtain rfl := (hiff s').1 hpush
  have hsp : (pushed (cs.state.set .t0 b.fp) .t0).get .sp = cs.state.get .sp - 4 := by
    rw [sp_pushed, sp_set_of_ne _ _ (by decide)]
  have hfp : (pushed (cs.state.set .t0 b.fp) .t0).get .fp = cs.state.get .fp := by
    rw [get_pushed_of_ne _ _ (by decide), State.get_set_of_ne _ _ _ _ (by decide)]
  have hmem : (pushed (cs.state.set .t0 b.fp) .t0).mem =
      cs.state.mem.setWord (cs.state.get .sp - 4) b.fp := by
    rw [mem_pushed, sp_set_of_ne _ _ (by decide), State.mem_set,
      State.get_set_self _ _ _ (by decide)]
  have hlt : (cs.state.get .sp - 4).toNat + 4 = (cs.state.get .sp).toNat := by bv_omega
  have haligned := aligned_sub_four h.aligned
  -- the new link is below the old ones
  have hwords : ∀ a ∈ cs.stack, a.outer ≠ [] →
      (cs.state.mem.setWord (cs.state.get .sp - 4) b.fp).word a.link =
        cs.state.mem.word a.link := by
    intro a' ha' hne
    refine Memory.word_setWord_of_ne _ _ haligned (h.linked.parent ha' hne).aligned ?_
    rintro heq
    have hbelow := h.below a' ha' hne
    rw [heq] at hbelow
    omega
  refine ⟨List.forall_mem_cons.2 ⟨?_, h.chains⟩, ⟨fun _ => ⟨?_, b, hb, hentered, ?_, ?_⟩, ?_⟩, ?_,
    List.forall_mem_cons.2 ⟨fun _ => ?_, fun a' ha' hne => ?_⟩, fun a' ha' => ?_⟩
  · exact Program.chain_iff.2 (.inr ⟨t, ht, rfl⟩)
  · rw [Activation.called_link, hsp]
    exact haligned
  · exact hchain.trans houter.symm
  · rw [Activation.called_link, hsp, hmem, Memory.word_setWord]
  · rw [hmem]
    exact h.linked.congr hwords
  · rw [hsp]
    exact haligned
  · exact Nat.le_of_eq (by rw [Activation.called_link])
  · have hbelow := h.below a' ha' hne
    rw [hsp]
    omega
  · rw [hfp]
    exact h.fp a' ha'

theorem LeavesLinks.sound {stack : List Activation} {s s' : State}
    (hleaves : LeavesLinks stack s s') (hchains : ∀ a ∈ stack, p.Chain a.chain)
    (hlinked : Linked s.mem stack) (hfp : ∀ a, running stack = some a → s'.get .fp = a.fp) :
    Calls.Sound p ⟨stack, s'⟩ :=
  ⟨hchains, hlinked.congr hleaves.words, hleaves.aligned, hleaves.below, hfp⟩

theorem CallStep.sound (hp : p.Accepted globals) {cs' : Calls} (hstep : CallStep p img cs cs')
    (h : cs.Sound p) : cs'.Sound p := by
  cases hstep with
  | work hleaves hfp =>
    exact hleaves.sound h.chains h.linked fun a ha => hfp.trans (h.fp a ha)
  | func ha hc hx ht hlabel hroom hpush =>
    obtain ⟨hfuncs, rest, hs⟩ := resolveFunc?_suffix hx
    have hparent := (h.chains _ (List.mem_of_find?_eq_some ha)).of_suffix hs
    exact h.called img ha hc ht (hparent.outer_eq hp hfuncs ht hlabel) hs hroom hpush
  | method ha hc ht hmethod hroom hpush =>
    have hs := (h.chains _ (List.mem_of_find?_eq_some ha)).main_suffix
    exact h.called img ha hc ht (method_outer ht hmethod) hs hroom hpush
  | @enter stack s s' a ha hsp hleaves hfp =>
    have hrunning : running ({ a with entered := true } :: stack) =
        some { a with entered := true } := rfl
    refine LeavesLinks.sound (s := s) ⟨List.forall_mem_cons.2 (List.forall_mem_cons.1 hleaves.words),
      hleaves.aligned, List.forall_mem_cons.2 (List.forall_mem_cons.1 hleaves.below)⟩
      (List.forall_mem_cons.2 (List.forall_mem_cons.1 h.chains)) ⟨fun hne => ?_, h.linked.2⟩ ?_
    · exact ⟨(h.linked.1 hne).aligned, (h.linked.1 hne).parent⟩
    · rw [hrunning]
      rintro _ ⟨⟩
      exact hfp.trans hsp
  | ret ha hleaves hfp =>
    exact hleaves.sound (List.forall_mem_cons.1 h.chains).2 h.linked.2 hfp

theorem Calls.Starts.sound (h : cs.Starts p) : cs.Sound p := by
  obtain ⟨hstack, haligned⟩ := h
  refine ⟨?_, ?_, haligned, ?_, ?_⟩
  · rw [hstack, List.forall_mem_singleton]
    exact Program.chain_iff.2 (.inl rfl)
  · rw [hstack]
    exact ⟨fun hne => absurd rfl hne, trivial⟩
  · rw [hstack, List.forall_mem_singleton]
    exact fun hne => absurd rfl hne
  · rw [hstack]
    rintro _ ⟨⟩
    rfl

/-- The invariant holds all along a run. -/
theorem Calls.Starts.sound_of_run (hp : p.Accepted globals) {cs' : Calls} (h : cs.Starts p)
    (hrun : Relation.ReflTransGen (CallStep p img) cs cs') : cs'.Sound p := by
  induction hrun with
  | refl => exact h.sound
  | tail _ hstep ih => exact hstep.sound img hp ih

end

/-- In every stack that a run of calls and returns reaches, the static link of an activation is the
frame pointer of a live activation below it that runs the function around; and from the running
activation the walk to the owner of a variable has no negative length and ends in `t0` at a live
activation of the owner. -/
theorem static_links {source : Bytes} {globals : Scope} {p : Program} (h : Accepts source globals p)
    {img : Image} {start cs : Calls} (hstart : start.Starts p)
    (hrun : Relation.ReflTransGen (CallStep p img) start cs) :
    (∀ above a below, cs.stack = above ++ a :: below → p.Chain a.chain ∧
      (a.frame ≠ p.mainFrame → ∃ b ∈ below, b.entered = true ∧ a.outer = b.chain ∧
        cs.state.mem.word (a.fp + BitVec.ofInt 32 a.frame.staticLink) = b.fp)) ∧
    ∀ a, running cs.stack = some a → ∀ c : Context, c.chain = a.chain →
      ∀ x owner offset, Frame.resolve x a.chain = .slot owner offset →
        0 ≤ hopsTo c owner.depth ∧
        ∀ es, Emit.Ok (frameWalk c (hopsTo c owner.depth)) es fun _ code _ =>
          ∃ s', img.effects cs.state code = some s' ∧
            ∃ b ∈ cs.stack, b.entered = true ∧ b.frame = owner ∧ s'.get .t0 = b.fp := by
  have hsound := hstart.sound_of_run img h.accepted hrun
  constructor
  · intro above a below hstack
    have hchain : p.Chain a.chain := hsound.chains a (by simp [hstack])
    refine ⟨hchain, fun hmain => ?_⟩
    have hne : a.outer ≠ [] := by
      intro hnil
      rw [Activation.chain, hnil] at hchain
      exact hmain hchain.eq_main
    have hlinked := hsound.linked
    rw [hstack] at hlinked
    obtain ⟨-, b, hb, hentered, hbchain, hword⟩ := hlinked.linksTo hne
    exact ⟨b, hb, hentered, hbchain.symm, hword⟩
  · intro a ha c hc x owner offset hx
    obtain ⟨rest, hs⟩ := resolve_suffix hx
    have hchain : p.Chain c.chain := hc ▸ hsound.chains a (List.mem_of_find?_eq_some ha)
    obtain ⟨k, hk, hhops, hdrop⟩ := hopsTo_eq hchain (hc ▸ hs)
    rw [hc] at hk hdrop
    obtain ⟨b, hb, hentered, hbchain, heffects⟩ := hsound.walk img ha hc hk
    rw [hhops]
    refine ⟨Int.natCast_nonneg k, fun es => ?_⟩
    rw [frameWalk_eq, Emit.ok_items]
    refine ⟨_, heffects, b, hb, hentered, ?_, State.get_set_self _ _ _ (by decide)⟩
    exact (List.cons.inj (hbchain.trans hdrop)).1

theorem Calls.Sound.leavesLinks {stack : List Activation} {s s' : State}
    (h : Calls.Sound p ⟨stack, s⟩) (hmem : s'.mem = s.mem) (haligned : Aligned (s'.get .sp))
    (hle : (s'.get .sp).toNat ≤ (s.get .sp).toNat) : LeavesLinks stack s s' :=
  ⟨fun _ _ _ => by rw [hmem], haligned, fun a ha hne => Nat.le_trans hle (h.below a ha hne)⟩

/-- The arguments fill the words down to the new frame pointer. -/
theorem Activation.toNat_fp_called {t : FrameSite} {s : State}
    (hroom : 4 * t.frame.params.length ≤ (s.get .sp).toNat) :
    (Activation.called t s).fp.toNat + 4 * t.frame.params.length = (s.get .sp).toNat := by
  have hlink : BitVec.ofInt 32 t.frame.staticLink =
      BitVec.ofNat 32 (4 * t.frame.params.length) := by
    rw [Frame.staticLink, Asm.wordSize]
    exact_mod_cast BitVec.ofInt_natCast 32 (4 * t.frame.params.length)
  simp only [Activation.called, hlink]
  bv_omega

/-- A function is entered once there is room for its arguments. -/
theorem Calls.Sound.exists_enter {stack : List Activation} {t : FrameSite} {s : State}
    (h : Calls.Sound p ⟨.called t s :: stack, s⟩) (hp : p.Accepted globals) (img : Image)
    (hroom : 4 * t.frame.params.length ≤ (s.get .sp).toNat) :
    ∃ s', Relation.ReflTransGen (CallStep p img) ⟨.called t s :: stack, s⟩
        ⟨{ Activation.called t s with entered := true } :: stack, s'⟩ ∧
      (s'.get .sp).toNat + 4 * t.frame.params.length = (s.get .sp).toNat := by
  have hfp := Activation.toNat_fp_called hroom
  have haligned : Aligned (Activation.called t s).fp := by
    have hsp : Aligned (s.get .sp) := h.aligned
    unfold Aligned at hsp ⊢
    omega
  generalize hs₁ : s.set .sp (Activation.called t s).fp = s₁
  have hsp₁ : s₁.get .sp = (Activation.called t s).fp := by
    rw [← hs₁, State.get_set_self _ _ _ (by decide)]
  have hargs : CallStep p img ⟨.called t s :: stack, s⟩ ⟨.called t s :: stack, s₁⟩ := by
    refine .work (h.leavesLinks (by simp [← hs₁]) (hsp₁ ▸ haligned) ?_) ?_
    · rw [hsp₁]
      omega
    · rw [← hs₁, State.get_set_of_ne _ _ _ _ (by decide)]
  have hsound := hargs.sound img hp h
  have hsp₂ : (s₁.set .fp (s₁.get .sp)).get .sp = s₁.get .sp := sp_set_of_ne _ _ (by decide)
  have henter : CallStep p img ⟨.called t s :: stack, s₁⟩
      ⟨{ Activation.called t s with entered := true } :: stack, s₁.set .fp (s₁.get .sp)⟩ := by
    refine .enter rfl hsp₁ (hsound.leavesLinks (by simp) ?_ ?_)
      (State.get_set_self _ _ _ (by decide))
    · rw [hsp₂]
      exact hsound.aligned
    · exact Nat.le_of_eq (congrArg _ hsp₂)
  exact ⟨_, (Relation.ReflTransGen.single hargs).tail henter, by rw [hsp₂, hsp₁, hfp]⟩

/-- Every call by name can be taken where the stack has room. -/
theorem Calls.Sound.exists_call {cs : Calls} (h : cs.Sound p) (hp : p.Accepted globals)
    (img : Image) {a : Activation} (ha : running cs.stack = some a) {x : Name} {parent : Frame}
    (hx : Frame.resolveFunc? x a.chain = some parent) {t : FrameSite} (ht : t ∈ p.frames)
    (hlabel : t.frame.label = parent.childLabel x)
    (hroom : 4 * t.frame.params.length + 4 ≤ (cs.state.get .sp).toNat) :
    ∃ fp s', Relation.ReflTransGen (CallStep p img) cs ⟨⟨t.frame, t.outer, fp, true⟩ :: cs.stack, s'⟩ ∧
      (s'.get .sp).toNat + (4 * t.frame.params.length + 4) = (cs.state.get .sp).toNat := by
  let c : Context := ⟨globals, [], a.frame, a.outer, .noneType, []⟩
  obtain ⟨hfuncs, rest, hs⟩ := resolveFunc?_suffix hx
  obtain ⟨b, -, -, -, hiff⟩ := h.push img ha (c := c) rfl hs
  have hpush := (hiff _).2 rfl
  have hsp : ((pushed (cs.state.set .t0 b.fp) .t0).get .sp).toNat + 4 =
      (cs.state.get .sp).toNat := by
    have hset : (cs.state.set .t0 b.fp).get .sp = cs.state.get .sp := sp_set_of_ne _ _ (by decide)
    rw [toNat_sp_pushed (by rw [hset]; omega), hset]
  generalize pushed (cs.state.set .t0 b.fp) .t0 = s₁ at hpush hsp
  have hcall : CallStep p img cs ⟨.called t s₁ :: cs.stack, s₁⟩ :=
    .func ha rfl hx ht hlabel (by omega) hpush
  obtain ⟨s', hrun, hsp'⟩ := (hcall.sound img hp h).exists_enter hp img (by omega)
  exact ⟨_, s', .head hcall hrun, by omega⟩

/-- A call of a function in a function. -/
theorem nesting_links : ∃ globals p, Accepts nesting globals p ∧ ∃ img start cs,
    start.Starts p ∧ Relation.ReflTransGen (CallStep p img) start cs ∧
      ∃ a below, cs.stack = a :: below ∧ a.frame.path = [txt "f", txt "g"] ∧
        ∃ b ∈ below, b.frame.path = [txt "f"] ∧ cs.state.mem.word a.link = b.fp := by
  have hrun : (accepted? nesting).any (fun r => r.2.frames.any fun t =>
      t.frame.path = [txt "f"] ∧ t.frame.params.length = 1 ∧
        t.frame.label = r.2.mainFrame.childLabel (txt "f") ∧
        Frame.resolveFunc? (txt "f") [r.2.mainFrame] = some r.2.mainFrame ∧
        Frame.resolveFunc? (txt "g") t.chain = some t.frame ∧
        r.2.frames.any fun u => u.frame.path = [txt "f", txt "g"] ∧ u.frame.params.length = 0 ∧
          u.outer = t.chain ∧ u.frame.label = t.frame.childLabel (txt "g")) = true := by
    decide +kernel
  obtain ⟨⟨globals, p⟩, hr, hframes⟩ := (Option.any_eq_true _ _).1 hrun
  have haccepts := accepts_of_accepted? hr
  have hp := haccepts.accepted
  obtain ⟨t, ht, hprop⟩ := List.any_eq_true.1 hframes
  obtain ⟨htpath, htparams, htlabel, htfunc, hufunc, hframes⟩ := of_decide_eq_true hprop
  obtain ⟨u, hu, hprop⟩ := List.any_eq_true.1 hframes
  obtain ⟨hupath, huparams, huouter, hulabel⟩ := of_decide_eq_true hprop
  let img : Image := ⟨[], fun _ => 0, fun _ => 0, fun _ => 0, fun _ => .out [], fun _ => none⟩
  let start : Calls := ⟨[⟨p.mainFrame, [], 4096, true⟩], ⟨fun _ => 4096, fun _ => 0⟩⟩
  have hsp₀ : start.state.get .sp = 4096 := rfl
  have hstart : start.Starts p := ⟨rfl, hsp₀ ▸ by decide⟩
  obtain ⟨fp, s, hcalls, hsp⟩ := hstart.sound.exists_call hp img rfl htfunc ht htlabel (by
    rw [htparams, hsp₀]
    decide)
  have hsound := hstart.sound_of_run img hp hcalls
  rw [htparams, hsp₀, show (4096 : Word).toNat = 4096 by decide] at hsp
  obtain ⟨fp', s', hcalls', -⟩ := hsound.exists_call hp img rfl hufunc hu hulabel (by
    rw [huparams]
    dsimp only
    omega)
  refine ⟨globals, p, haccepts, img, start, _, hstart, hcalls.trans hcalls', _, _, rfl, hupath, ?_⟩
  obtain ⟨-, hlinks⟩ := (static_links haccepts hstart (hcalls.trans hcalls')).1 [] _ _ rfl
  obtain ⟨b, hb, -, houter, hword⟩ := hlinks fun hmain => by
    have hpath : u.frame.path = [] := congrArg Frame.path hmain
    rw [hpath] at hupath
    cases hupath
  refine ⟨b, hb, ?_, hword⟩
  have hframe : t.frame = b.frame := (List.cons.inj (huouter.symm.trans houter)).1
  rw [← hframe, htpath]

end ChocoRv
