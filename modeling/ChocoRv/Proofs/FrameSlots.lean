import ChocoRv.Proofs.ScopeAgreement
import ChocoRv.Proofs.Sites
import ChocoRv.Proofs.Slots

/-!
# Slots of a frame

The words of a frame that belong to parameters, to declared locals and to `for` statements lie side
by side: the parameters from the static link down to `fp`, and below the saved words first the
locals and then two words for each `for` statement, in the order in which code is generated for
them. So no two of them are the same word, and all are in the part that the prologue reserves.
-/

namespace ChocoRv

open Codegen Emit

/-! ### Numbered statements -/

mutual

/-- The `for` statements in a statement with their numbers, from `k` on, in preorder. -/
def Stmt.fors (k : Nat) : Stmt → List (Nat × Stmt)
  | .each loc id iterable body => (k, .each loc id iterable body) :: Stmt.allFors (k + 1) body
  | .loop _ _ body => Stmt.allFors k body
  | .ite _ _ yes no => Stmt.allFors k yes ++ Stmt.allFors (k + Stmt.forCounts yes) no
  | .expr .. | .assign .. | .ret .. => []

def Stmt.allFors (k : Nat) : List Stmt → List (Nat × Stmt)
  | [] => []
  | s :: ss => s.fors k ++ Stmt.allFors (k + s.forCount) ss

end

def Stmt.isFor : Stmt → Bool
  | .each .. => true
  | _ => false

mutual

/-- The numbers are those from `k` on, without gaps. -/
theorem Stmt.fors_numbers : ∀ (s : Stmt) (k : Nat),
    (s.fors k).map Prod.fst = List.range' k s.forCount
  | .each _ _ _ body, k => by
    rw [Stmt.fors, List.map_cons, Stmt.allFors_numbers body, Stmt.forCount, Nat.add_comm 1,
      List.range'_succ]
  | .loop _ _ body, k => by
    rw [Stmt.fors, Stmt.allFors_numbers body, Stmt.forCount]
  | .ite _ _ yes no, k => by
    rw [Stmt.fors, List.map_append, Stmt.allFors_numbers yes, Stmt.allFors_numbers no,
      Stmt.forCount, List.range'_append_1]
  | .expr .., k | .assign .., k | .ret .., k => by
    simp [Stmt.fors, Stmt.forCount]

theorem Stmt.allFors_numbers : ∀ (ss : List Stmt) (k : Nat),
    (Stmt.allFors k ss).map Prod.fst = List.range' k (Stmt.forCounts ss)
  | [], k => by simp [Stmt.allFors, Stmt.forCounts]
  | s :: ss, k => by
    rw [Stmt.allFors, List.map_append, s.fors_numbers, Stmt.allFors_numbers ss, Stmt.forCounts,
      List.range'_append_1]

end

mutual

/-- The statements are all `for` statements, at whatever depth. -/
theorem Stmt.fors_stmts : ∀ (s : Stmt) (k : Nat),
    (s.fors k).map Prod.snd = s.nested.filter Stmt.isFor
  | .each _ _ _ body, k => by
    rw [Stmt.fors, List.map_cons, Stmt.allFors_stmts body, Stmt.nested,
      List.filter_cons_of_pos rfl]
  | .loop _ _ body, k => by
    simp [Stmt.fors, Stmt.nested, Stmt.isFor, Stmt.allFors_stmts body]
  | .ite _ _ yes no, k => by
    simp [Stmt.fors, Stmt.nested, Stmt.isFor, Stmt.allFors_stmts yes, Stmt.allFors_stmts no]
  | .expr .., k | .assign .., k | .ret .., k => by
    simp [Stmt.fors, Stmt.nested, Stmt.isFor]

theorem Stmt.allFors_stmts : ∀ (ss : List Stmt) (k : Nat),
    (Stmt.allFors k ss).map Prod.snd = (Stmt.allNested ss).filter Stmt.isFor
  | [], k => rfl
  | s :: ss, k => by
    rw [Stmt.allFors, List.map_append, s.fors_stmts, Stmt.allFors_stmts ss, Stmt.allNested,
      List.filter_append]

end

mutual

/-- Code is generated for a `for` statement under its number. -/
theorem Stmt.fors_contains (c : Context) : ∀ (s : Stmt) (k : Nat),
    ∀ r ∈ s.fors k, Contains (s.gen c k) (r.2.gen c r.1)
  | .each loc id iterable body, k => by
    rw [Stmt.fors, List.forall_mem_cons]
    refine ⟨.refl _, fun r hr => ?_⟩
    simp only [Stmt.gen]
    refine .right fun slots => forLoop_contains c slots id _ (.inr ?_)
    exact Stmt.allFors_contains c body _ r hr
  | .loop _ _ body, k => by
    intro r hr
    simp only [Stmt.gen]
    exact whileLoop_contains (.inr (Stmt.allFors_contains c body k r hr))
  | .ite _ _ yes no, k => by
    rw [Stmt.fors, List.forall_mem_append]
    simp only [Stmt.gen]
    refine ⟨fun r hr => ?_, fun r hr => ?_⟩
    · refine conditional_contains ?_ (.inr (.inl (Stmt.allFors_contains c yes k r hr)))
      intro code hcode
      split at hcode <;> cases hcode
      infer_instance
    · have hne : ¬ no.isEmpty = true := fun hempty => by
        rw [List.isEmpty_iff.1 hempty] at hr
        cases hr
      rw [if_neg hne]
      refine conditional_contains ?_ (.inr (.inr ⟨_, rfl, Stmt.allFors_contains c no _ r hr⟩))
      rintro _ ⟨⟩
      infer_instance
  | .expr .., k | .assign .., k | .ret .., k => by
    simp [Stmt.fors]

theorem Stmt.allFors_contains (c : Context) : ∀ (ss : List Stmt) (k : Nat),
    ∀ r ∈ Stmt.allFors k ss, Contains (Stmt.genAll c k ss) (r.2.gen c r.1)
  | [], k => by simp [Stmt.allFors]
  | s :: ss, k => by
    rw [Stmt.allFors, List.forall_mem_append]
    simp only [Stmt.genAll]
    exact ⟨fun r hr => (s.fors_contains c k r hr).left,
      fun r hr => .right fun _ => Stmt.allFors_contains c ss _ r hr⟩

end

/-! ### Words of a frame -/

namespace Frame

variable {f : Frame}

theorem map_lookup_reverse {t : Bindings Int} (hnd : (t.map Prod.fst).Nodup) :
    (t.map Prod.fst).map (fun x => t.reverse.lookup x) = t.map fun b => some b.2 := by
  rw [List.map_map]
  refine List.map_congr_left fun b hb => ?_
  have hnd : (t.reverse.map Prod.fst).Nodup := by rwa [List.map_reverse, List.nodup_reverse]
  exact lookup_of_mem hnd (List.mem_reverse.2 hb)

theorem map_mapIdx_snd {α β : Type} (xs : List α) (g : Nat → β) :
    (xs.mapIdx fun i x => (x, g i)).map Prod.snd = (List.range xs.length).map g := by
  exact List.ext_getElem (by simp) (by simp)

/-- The offsets of parameters and locals, in order. -/
theorem map_offset? (hnd : (f.params ++ f.locals).Nodup) :
    (f.params ++ f.locals).map f.offset? = ((List.range f.params.length).map f.paramOffset ++
      (List.range f.locals.length).map localOffset).map some := by
  have hslots := map_lookup_reverse (t := f.slots) (by rwa [slots_names])
  rw [slots_names] at hslots
  refine hslots.trans ?_
  rw [← map_mapIdx_snd f.params, ← map_mapIdx_snd f.locals, ← List.map_append, List.map_map]
  rfl

theorem offset?_param (hnd : (f.params ++ f.locals).Nodup) {x : Name} (hx : x ∈ f.params) :
    ∃ i < f.params.length, f.offset? x = some (f.paramOffset i) := by
  have hmap := map_offset? hnd
  rw [List.map_append, List.map_append] at hmap
  have hparams := (List.append_inj hmap (by simp)).1
  have hmem : f.offset? x ∈ f.params.map f.offset? := List.mem_map_of_mem hx
  rw [hparams] at hmem
  simp only [List.map_map, List.mem_map, List.mem_range] at hmem
  obtain ⟨i, hi, heq⟩ := hmem
  exact ⟨i, hi, heq.symm⟩

theorem offset?_local (hnd : (f.params ++ f.locals).Nodup) {x : Name} (hx : x ∈ f.locals) :
    ∃ k < f.locals.length, f.offset? x = some (localOffset k) := by
  have hmap := map_offset? hnd
  rw [List.map_append, List.map_append] at hmap
  have hlocals := (List.append_inj hmap (by simp)).2
  have hmem : f.offset? x ∈ f.locals.map f.offset? := List.mem_map_of_mem hx
  rw [hlocals] at hmem
  simp only [List.map_map, List.mem_map, List.mem_range] at hmem
  obtain ⟨k, hk, heq⟩ := hmem
  exact ⟨k, hk, heq.symm⟩

/-- The offsets of the words of one `for` statement. -/
def forOffsets (f : Frame) (k : Nat) : List (Option Int) :=
  [(f.forSlots? k).map Prod.fst, (f.forSlots? k).map Prod.snd]

theorem forSlots?_of_lt {k : Nat} (h : k < f.fors) : f.forSlots? k =
    some (localOffset (f.locals.length + 2 * k), localOffset (f.locals.length + 2 * k + 1)) :=
  if_pos h

theorem flatMap_forOffsets : ∀ n ≤ f.fors, (List.range n).flatMap f.forOffsets =
    (List.range (2 * n)).map fun j => some (localOffset (f.locals.length + j))
  | 0, _ => rfl
  | n + 1, h => by
    rw [List.range_succ, List.flatMap_append, flatMap_forOffsets n (by omega), Nat.mul_succ,
      List.range_succ, List.range_succ, List.map_append, List.map_append, List.append_assoc]
    simp [forOffsets, forSlots?_of_lt (Nat.lt_of_succ_le h), Nat.add_assoc]

/-- The offsets of all words, in order. -/
def offsets (f : Frame) : List Int :=
  (List.range f.params.length).map f.paramOffset ++ (List.range f.numLocals).map localOffset

theorem map_some_offsets (hnd : (f.params ++ f.locals).Nodup) :
    (f.params ++ f.locals).map f.offset? ++ (List.range f.fors).flatMap f.forOffsets =
      f.offsets.map some := by
  rw [map_offset? hnd, flatMap_forOffsets _ (Nat.le_refl _), offsets, numLocals, List.range_add]
  simp [List.map_append, Function.comp_def]

theorem paramOffset_bounds {i : Nat} (h : i < f.params.length) :
    0 ≤ f.paramOffset i ∧ f.paramOffset i ≤ 4 * (f.params.length - 1) := by
  simp only [paramOffset, Asm.wordSize]
  omega

theorem localOffset_bounds {k : Nat} (h : k < f.numLocals) :
    -(f.size : Int) ≤ localOffset k ∧ localOffset k ≤ -12 := by
  simp only [localOffset, size, savedWords, Asm.wordSize]
  omega

theorem localOffset_inj {k k' : Nat} (h : localOffset k = localOffset k') : k = k' := by
  simp only [localOffset, savedWords, Asm.wordSize] at h
  omega

theorem mem_offsets {o : Int} : o ∈ f.offsets ↔
    (∃ i < f.params.length, f.paramOffset i = o) ∨ ∃ k < f.numLocals, localOffset k = o := by
  simp [offsets]

/-- No word belongs to two. -/
theorem offsets_nodup (f : Frame) : f.offsets.Nodup := by
  rw [offsets, List.nodup_append]
  refine ⟨?_, ?_, ?_⟩
  · refine List.Nodup.map_on (fun i hi j hj heq => ?_) List.nodup_range
    rw [List.mem_range] at hi hj
    simp only [paramOffset, Asm.wordSize] at heq
    omega
  · exact List.Nodup.map (fun _ _ => localOffset_inj) List.nodup_range
  · intro a ha b hb
    obtain ⟨i, hi, rfl⟩ := List.mem_map.1 ha
    obtain ⟨k, hk, rfl⟩ := List.mem_map.1 hb
    have hparam := paramOffset_bounds (List.mem_range.1 hi)
    have hlocal := localOffset_bounds (List.mem_range.1 hk)
    omega

/-- All are whole words, apart from the saved registers and the static link. -/
theorem offsets_aligned {o : Int} (h : o ∈ f.offsets) :
    4 ∣ o ∧ o ≠ -4 ∧ o ≠ -8 ∧ o ≠ f.staticLink := by
  rcases mem_offsets.1 h with ⟨i, hi, rfl⟩ | ⟨k, hk, rfl⟩
  · simp only [paramOffset, staticLink, Asm.wordSize]
    omega
  · simp only [localOffset, staticLink, savedWords, Asm.wordSize]
    omega

end Frame

/-! ### The frames of a program -/

/-- A frame with what it is made for: parameters, declarations and statements. -/
structure Holder where
  frame : Frame
  params : List TypedVar
  decls : List LocalDecl
  body : List Stmt

namespace Holder

/-- The `for` statements of the body with their numbers. -/
def fors (h : Holder) : List (Nat × Stmt) := Stmt.allFors 0 h.body

/-- The `for` statements of the body, at whatever depth. -/
def forStmts (h : Holder) : List Stmt := (Stmt.allNested h.body).filter Stmt.isFor

def locals (h : Holder) : List VarDef := h.decls.filterMap LocalDecl.var?

/-- What the frame says of each parameter and local and of the two words of each `for`
statement. -/
def offsets (h : Holder) : List (Option Int) :=
  h.params.map (fun v => h.frame.offset? v.name.name) ++
    h.locals.map (fun d => h.frame.offset? d.name) ++
    h.fors.flatMap fun r => h.frame.forOffsets r.1

/-- The slots of the frame are words of their own, and they are all that its prologue reserves. -/
structure LaidOut (h : Holder) : Prop where
  found : none ∉ h.offsets
  apart : h.offsets.Nodup
  aligned : ∀ o, some o ∈ h.offsets → 4 ∣ o ∧ o ≠ -4 ∧ o ≠ -8 ∧ o ≠ h.frame.staticLink
  params : ∀ v ∈ h.params, ∃ o, h.frame.offset? v.name.name = some o ∧
    0 ≤ o ∧ o ≤ 4 * (h.params.length - 1)
  locals : ∀ d ∈ h.locals, ∃ o, h.frame.offset? d.name = some o ∧
    -(h.frame.size : Int) ≤ o ∧ o ≤ -12
  hidden : ∀ r ∈ h.fors, ∃ seq index, h.frame.forSlots? r.1 = some (seq, index) ∧
    ∀ o ∈ [seq, index], -(h.frame.size : Int) ≤ o ∧ o ≤ -12
  every : h.fors.map Prod.snd = h.forStmts
  numLocals : h.frame.numLocals = h.locals.length + 2 * h.forStmts.length
  /-- Code is generated for a `for` statement under the number that it has here. -/
  generated : ∀ c : Context, c.frame = h.frame → ∀ r ∈ h.fors,
    Contains (Stmt.genAll c 0 h.body) (r.2.gen c r.1)

/-- The frame is made for the declarations and statements, and no name is declared twice. -/
structure Suits (h : Holder) : Prop where
  params : h.frame.params = h.params.map (·.name.name)
  locals : h.frame.locals = h.locals.map VarDef.name
  fors : h.frame.fors = Stmt.forCounts h.body
  nodup : (h.frame.params ++ h.frame.locals).Nodup

namespace Suits

variable {h : Holder}

theorem offsets_eq (hs : h.Suits) : h.offsets = h.frame.offsets.map some := by
  rw [← Frame.map_some_offsets hs.nodup, hs.params, hs.locals, hs.fors, offsets, Holder.fors,
    List.range_eq_range', ← Stmt.allFors_numbers]
  simp [List.flatMap_map, Function.comp_def]

theorem lt_fors (hs : h.Suits) {r : Nat × Stmt} (hr : r ∈ h.fors) : r.1 < h.frame.fors := by
  have hmem : r.1 ∈ h.fors.map Prod.fst := List.mem_map_of_mem hr
  rw [Holder.fors, Stmt.allFors_numbers, ← List.range_eq_range', List.mem_range] at hmem
  rwa [hs.fors]

theorem length_forStmts (hs : h.Suits) : h.forStmts.length = h.frame.fors := by
  rw [forStmts, ← Stmt.allFors_stmts _ 0, List.length_map, ← List.length_map (f := Prod.fst),
    Stmt.allFors_numbers, List.length_range', hs.fors]

theorem laidOut (hs : h.Suits) : h.LaidOut where
  found hnone := by
    rw [hs.offsets_eq] at hnone
    simp at hnone
  apart := by
    rw [hs.offsets_eq]
    exact h.frame.offsets_nodup.map (Option.some_injective Int)
  aligned o ho := by
    rw [hs.offsets_eq] at ho
    exact Frame.offsets_aligned (by simpa using ho)
  params v hv := by
    have hx : v.name.name ∈ h.frame.params := by
      rw [hs.params]
      exact List.mem_map_of_mem hv
    obtain ⟨i, hi, ho⟩ := Frame.offset?_param hs.nodup hx
    have hlength : h.frame.params.length = h.params.length := by rw [hs.params, List.length_map]
    exact ⟨_, ho, hlength ▸ Frame.paramOffset_bounds hi⟩
  locals d hd := by
    have hx : d.name ∈ h.frame.locals := by
      rw [hs.locals]
      exact List.mem_map_of_mem hd
    obtain ⟨k, hk, ho⟩ := Frame.offset?_local hs.nodup hx
    exact ⟨_, ho, Frame.localOffset_bounds (Nat.lt_add_right _ hk)⟩
  hidden r hr := by
    have hlt := hs.lt_fors hr
    refine ⟨_, _, Frame.forSlots?_of_lt hlt, fun o ho => ?_⟩
    have hk : h.frame.locals.length + 2 * r.1 + 1 < h.frame.numLocals := by
      rw [Frame.numLocals]
      omega
    rcases List.mem_pair.1 ho with rfl | rfl
    · exact Frame.localOffset_bounds (Nat.lt_of_succ_lt hk)
    · exact Frame.localOffset_bounds hk
  every := Stmt.allFors_stmts h.body 0
  numLocals := by
    rw [Frame.numLocals, hs.locals, List.length_map, hs.length_forStmts]
  generated _ _ := Stmt.allFors_contains _ h.body 0

end Suits

end Holder

theorem LocalDecl.vars_sublist : ∀ ds : List LocalDecl,
    ((ds.filterMap LocalDecl.var?).map VarDef.name).Sublist (ds.map (·.ident.name))
  | [] => .slnil
  | .var d :: ds => (LocalDecl.vars_sublist ds).cons_cons d.name
  | .func _ :: ds | .global _ _ :: ds | .nonlocal _ _ :: ds => (LocalDecl.vars_sublist ds).cons _

namespace Program

/-- The top-level program and all functions and methods, with their frames. -/
def holders (p : Program) : List Holder :=
  ⟨p.mainFrame, [], [], p.body⟩ ::
    p.frames.map fun s => ⟨s.frame, s.defn.params, s.defn.decls, s.defn.body⟩

variable {p q : Program} {globals : Scope}

theorem Nested.suits {s : FrameSite} {outer : Values} {env : Env}
    (hn : p.Nested globals s outer env) (hp : p.Declared globals) :
    Holder.Suits ⟨s.frame, s.defn.params, s.defn.decls, s.defn.body⟩ := by
  have hframe := hn.frame_eq
  have hnd := (hn.declared hp).nodup
  rw [hframe]
  exact ⟨rfl, rfl, rfl, hnd.sublist ((List.Sublist.refl _).append (LocalDecl.vars_sublist _))⟩

theorem holders_suit (hp : p.Declared globals) : ∀ h ∈ p.holders, h.Suits := by
  rw [holders, List.forall_mem_cons, List.forall_mem_map]
  refine ⟨⟨rfl, rfl, rfl, List.nodup_nil⟩, fun s hs => ?_⟩
  obtain ⟨outer, env, hn⟩ := (mem_frames_iff globals).1 hs
  exact hn.suits hp

/-- Code generation never asks for words that a frame does not have. -/
theorem generate_fault (comments : Bool) :
    p.generate globals comments ≠ .error (.fault .noForSlots) := by
  have hfors : ∀ s ∈ p.frames, Stmt.forCounts s.defn.body ≤ s.frame.fors := fun s hs => by
    obtain ⟨outer, env, hn⟩ := (mem_frames_iff globals).1 hs
    rw [hn.frame_eq]
    exact Nat.le_refl _
  intro h
  unfold generate at h
  cases hitems : p.items globals with
  | error e =>
    rw [hitems] at h
    cases h
    exact items_fault (· ≠ .noForSlots) hfors hitems rfl
  | ok items =>
    rw [hitems] at h
    let listing : Asm.Listing := { comments, items, external := runtimeLabels }
    have h : listing.finish.mapError CodegenError.labels = .error (.fault .noForSlots) := h
    cases hfinish : listing.finish <;> rw [hfinish] at h <;> cases h

end Program

/-- The slots of a frame never overlap: in a program whose declarations are in order, with or
without types, the parameters, the locals and the two words of each `for` statement of each frame
are words of their own, and code generation finds those that it asks for. -/
theorem frame_slots_apart {source : Bytes} {p q : Program} {globals : Scope}
    (hparse : parse source = .ok p) (hdeclare : p.declare = ⟨globals, []⟩) (hq : q.erase = p) :
    (∀ h ∈ q.holders, h.LaidOut) ∧
      ∀ globals' comments, q.generate globals' comments ≠ .error (.fault .noForSlots) := by
  have hvalid : q.Valid := by
    rw [← Program.valid_erase, hq]
    exact parse_valid hparse
  have hdeclared : q.Declared globals := by
    refine Program.declared hvalid ?_
    rw [← Program.declare_erase, hq, hdeclare]
  exact ⟨fun h hh => (Program.holders_suit hdeclared h hh).laidOut,
    fun globals' comments => Program.generate_fault comments⟩

/-- Two parameters, two locals and a loop inside another one. -/
def nestedLoops : Bytes :=
  txt "def f(a:int, b:int)->int:\n  x:int = 0\n  y:bool = True\n  for x in [1]:\n" ++
    txt "    for x in [2]:\n      pass\n  return a\n"

theorem nestedLoops_apart : ∃ globals p, parse nestedLoops = .ok p ∧ p.declare = ⟨globals, []⟩ ∧
    p.holders.map Holder.offsets =
      [[], [some 4, some 0, some (-12), some (-16), some (-20), some (-24), some (-28),
        some (-32)]] ∧
    (∀ h ∈ p.holders, h.LaidOut) ∧
    ∀ globals' comments, p.generate globals' comments ≠ .error (.fault .noForSlots) := by
  have hrun : (parse nestedLoops).toOption.any (fun p => p.holders.map Holder.offsets =
      [[], [some 4, some 0, some (-12), some (-16), some (-20), some (-24), some (-28),
        some (-32)]] ∧ p.declare.diagnostics = []) = true := by decide +kernel
  obtain ⟨p, hparse, hprop⟩ := ok_of_any hrun
  obtain ⟨hoffsets, hreports⟩ := of_decide_eq_true hprop
  have hdeclare : p.declare = ⟨p.declare.value, []⟩ := by
    rw [← hreports]
  exact ⟨_, p, hparse, hdeclare, hoffsets,
    frame_slots_apart hparse hdeclare (erase_of_parse hparse)⟩

end ChocoRv
