import ChocoRv.Proofs.CoreStmts

/-!
# Core programs run as they mean

The code of an accepted core program does on the machine what the program means: it comes to the
call that exits with the final values in the words of the variables, or to `error.Div` if the
program divides by zero, or it runs forever.
-/

namespace ChocoRv

open Asm Rv32 Codegen Emit ChocoRv.Core

/-! ### Types of core programs -/

namespace Core

variable {globals : Scope} {p : Program}

mutual

theorem forCount_of_isCore : ∀ {s : Stmt}, s.isCore = true → s.forCount = 0
  | .expr .., _ | .assign .., _ => by simp [Stmt.forCount]
  | .ite _ _ yes no, h => by
    simp only [Stmt.isCore, Bool.and_eq_true] at h
    rw [Stmt.forCount, forCounts_of_allCore h.1.2, forCounts_of_allCore h.2]
  | .loop _ _ body, h => by
    simp only [Stmt.isCore, Bool.and_eq_true] at h
    rw [Stmt.forCount, forCounts_of_allCore h.2]
  | .each .., h | .ret .., h => by simp [Stmt.isCore] at h

theorem forCounts_of_allCore : ∀ {ss : List Stmt}, Stmt.allCore ss = true → Stmt.forCounts ss = 0
  | [], _ => by simp [Stmt.forCounts]
  | s :: ss, h => by
    simp only [Stmt.allCore, Bool.and_eq_true] at h
    rw [Stmt.forCounts, forCount_of_isCore h.1, forCounts_of_allCore h.2]

end

/-- A core program declares variables only. -/
theorem exists_var_of_isCore (hcore : p.isCore = true) {d : TopDecl} (hd : d ∈ p.decls) :
    ∃ v, d = .var v ∧ IsScalar v.ty := by
  rw [Program.isCore, Bool.and_eq_true, List.all_eq_true] at hcore
  have h := hcore.1 d hd
  cases d with
  | var v =>
    rw [TopDecl.isCore, Bool.or_eq_true, beq_iff_eq, beq_iff_eq] at h
    exact ⟨v, rfl, h⟩
  | func | cls => simp [TopDecl.isCore] at h

/-- A core program has no classes but those built in. -/
theorem hierarchy_of_isCore (h : p.Declared globals) (hcore : p.isCore = true) :
    globals.hierarchy = Scope.builtins.hierarchy := by
  have hclass : p.decls.filterMap TopDecl.class? = [] := by
    rw [List.filterMap_eq_nil_iff]
    intro d hd
    obtain ⟨v, rfl, -⟩ := exists_var_of_isCore hcore hd
    rfl
  have hfunc : p.decls.filterMap TopDecl.func? = [] := by
    rw [List.filterMap_eq_nil_iff]
    intro d hd
    obtain ⟨v, rfl, -⟩ := exists_var_of_isCore hcore hd
    rfl
  unfold Scope.hierarchy
  rw [h.entries, Program.table, hclass, hfunc, List.map_nil, List.map_nil, List.append_nil,
    List.append_nil, List.filterMap_append]
  -- variables are no classes
  have hvars : ∀ f : Name × Entry → Option (Name × Option Name), (∀ d : VarDef, f d.binding = none) →
      ((p.decls.filterMap TopDecl.var?).map VarDef.binding).filterMap f = [] := by
    intro f hf
    rw [List.filterMap_eq_nil_iff]
    intro b hb
    obtain ⟨d, -, rfl⟩ := List.mem_map.1 hb
    exact hf d
  rw [hvars, List.append_nil]
  exact fun _ => rfl

theorem eq_of_isCompatible {a b : Ty} (ha : IsScalar a) (hb : IsScalar b ∨ b = .str ∨ b = .noneType)
    (h : Scope.builtins.hierarchy.isCompatible a b = true) : a = b := by
  rcases ha with rfl | rfl <;> rcases hb with (rfl | rfl) | rfl | rfl <;> revert h <;> decide

theorem atTop (h : p.Accepted globals) (hcore : p.isCore = true) (layouts : List ClassLayout) :
    AtTop globals ⟨globals, layouts, p.mainFrame, [], .noneType, []⟩ := by
  refine ⟨rfl, fun x t hx => ?_, fun a b ha hb hcompat => ?_⟩
  · obtain ⟨d, hd, -, rfl⟩ := h.declared.value?_iff.1 hx
    obtain ⟨v, heq, hv⟩ := exists_var_of_isCore hcore hd
    cases heq
    exact hv
  · rw [hierarchy_of_isCore h.declared hcore] at hcompat
    exact eq_of_isCompatible ha (.inl hb) hcompat

/-! ### The words of the variables -/

/-- The value that a variable of a core program starts with. -/
theorem initial_value (h : p.Accepted globals) (hcore : p.isCore = true) {d : VarDef}
    (hd : .var d ∈ p.decls) :
    ∃ v, litValue? d.value.value = some v ∧ v.ty = d.ty ∧ v.Fits := by
  obtain ⟨_, heq, hscalar⟩ := exists_var_of_isCore hcore hd
  cases heq
  have hvalid : d.value.value.Valid := (h.valid.1 _ hd).2
  have htyped : d.Typed globals.hierarchy globals.entries := h.typed.1 _ hd
  have hcompat := htyped.2 d.ty (h.declared.value?_iff.2 ⟨d, hd, rfl, rfl⟩)
  rw [hierarchy_of_isCore h.declared hcore] at hcompat
  cases hlit : d.value.value with
  | int n =>
    rw [hlit] at hcompat hvalid
    obtain ⟨h₀, h₁⟩ : 0 ≤ n ∧ n ≤ 2147483647 := hvalid
    refine ⟨.int n, rfl, (eq_of_isCompatible hscalar (.inl (.inl rfl)) hcompat).symm, ?_⟩
    exact Int.bmod_eq_of_le (by omega) (by omega)
  | bool b =>
    rw [hlit] at hcompat
    exact ⟨.bool b, rfl, (eq_of_isCompatible hscalar (.inl (.inr rfl)) hcompat).symm, trivial⟩
  | str x =>
    rw [hlit] at hcompat
    have heq := eq_of_isCompatible hscalar (.inr (.inl rfl)) hcompat
    exact absurd heq (ne_str_of_scalar hscalar)
  | none =>
    rw [hlit] at hcompat
    have heq := eq_of_isCompatible hscalar (.inr (.inr rfl)) hcompat
    rcases hscalar with h | h <;> rw [h] at heq <;> cases heq

theorem literalWord_ok {l : Lit} {v : Value} (hv : litValue? l = some v) (text : Bytes)
    (st : EmitState) : Ok (literalWord l v.ty text) st fun _ code _ =>
      ∃ n, code = [.word n text] ∧ BitVec.ofInt 32 n = v.word := by
  cases l with
  | int n =>
    cases hv
    simp only [literalWord, Value.ty, show Ty.int.isUnboxed = true by decide, if_true, ok_items]
    exact ⟨n, rfl, rfl⟩
  | bool b =>
    cases hv
    simp only [literalWord, Value.ty, show Ty.bool.isUnboxed = true by decide, if_true, ok_items]
    exact ⟨boolWord b, rfl, by cases b <;> rfl⟩
  | str | none => cases hv

/-- The data of variables: a label and a word for each. -/
theorem emitGlobals_ok : ∀ {ds : List TopDecl},
    (∀ d ∈ ds, ∃ x v, d = .var x ∧ litValue? x.value.value = some v ∧
      globals.entries.value? x.name = some v.ty) →
    ∀ st, Ok (emitGlobals globals ds) st fun _ data _ =>
      (∀ l, l ∈ defined data ↔ ∃ d, .var d ∈ ds ∧ l = globalLabel d.name) ∧
      ∀ d v, .var d ∈ ds → litValue? d.value.value = some v → ∃ n text,
        [.globalLabel (globalLabel d.name), .word n text] <:+: data ∧ BitVec.ofInt 32 n = v.word := by
  intro ds
  induction ds with
  | nil => intro _ st; simp [emitGlobals, ok_pure]
  | cons d ds ih =>
    intro hds st
    obtain ⟨⟨x, v, rfl, hlit, hty⟩, hds'⟩ := List.forall_mem_cons.1 hds
    simp only [emitGlobals, ok_bind, ok_need, ok_items, List.nil_append, List.singleton_append]
    refine ⟨_, hty, (literalWord_ok hlit _ st).mono fun _ word st₁ hword =>
      (ih hds' st₁).mono fun _ data _ hdata => ?_⟩
    obtain ⟨n, rfl, hn⟩ := hword
    obtain ⟨hdefined, hwords⟩ := hdata
    refine ⟨fun l => ?_, fun d v' hd hv' => ?_⟩
    · rw [defined_globalLabel, List.mem_cons]
      refine (or_congr_right (hdefined l)).trans ?_
      simp
    · rcases List.mem_cons.1 hd with heq | hd'
      · cases heq
        obtain rfl : v' = v := Option.some.inj (hv'.symm.trans hlit)
        exact ⟨n, _, ⟨[], data, rfl⟩, hn⟩
      · obtain ⟨n', text, hinfix, hn'⟩ := hwords d v' hd' hv'
        exact ⟨n', text, List.infix_cons (List.infix_cons hinfix), hn'⟩

/-- The first variable of a name is the only one. -/
theorem find?_name {ds : List VarDef} (hnd : (ds.map VarDef.name).Nodup) {d : VarDef}
    (hd : d ∈ ds) : ds.find? (·.name == d.name) = some d := by
  cases h : ds.find? (·.name == d.name) with
  | none => simpa using List.find?_eq_none.1 h d hd
  | some d' =>
    have hname : d'.name = d.name := by simpa using List.find?_some h
    rw [List.inj_on_of_nodup_map hnd (List.mem_of_find?_eq_some h) hd hname]

theorem initial_of_var (h : p.Declared globals) {d : VarDef} (hd : .var d ∈ p.decls) :
    p.initial d.name = litValue? d.value.value := by
  have hnd := Declarations.nodup_filterMap_name TopDecl.var? VarDef.name
    (fun d v h => by cases TopDecl.var?_eq_some.1 h; rfl) h.nodup
  rw [Program.initial, find?_name hnd (List.mem_filterMap.2 ⟨_, hd, rfl⟩), Option.bind_some]

/-! ### The prologue -/

/-- The state after the prologue of the top level. -/
def entered (s : State) : State :=
  (((s.set .sp (s.get .sp - 8)).setWord (s.get .sp - 4) 0).setWord (s.get .sp - 8) 0).set .fp
    (s.get .sp)

theorem Ready.entered {img : Image} {σ : Store} {room : Nat} {s : State}
    (h : Ready globals img σ (room + 2) s) (hlink : Linked globals img) :
    Ready globals img σ room (Core.entered s) := by
  refine ((h.pushed hlink .zero).pushed hlink .zero).kept hlink (.of_mem ?_ ?_)
  · rw [Core.entered, State.get_set_of_ne _ _ _ _ (by decide), State.get_setWord,
      State.get_setWord, State.get_set_self _ _ _ (by decide), sp_pushed, sp_pushed]
    bv_omega
  · have hsub : s.get .sp - 8 = s.get .sp - 4 - 4 := by bv_omega
    simp only [Core.entered, Rv32.pushed, State.mem_set, State.mem_setWord, State.get_setWord,
      State.get_zero, hsub, State.get_set_self _ _ _ (show Reg.sp ≠ .zero by decide)]

theorem effects_entered (img : Image) {s : State} (h : Aligned (s.get .sp)) (c₁ c₂ c₃ c₄ : Bytes) :
    img.effects s [.instr (.opImm .addi .sp .sp (-8)) c₁, .instr (.store .sw .zero .sp 4) c₂,
      .instr (.store .sw .zero .sp 0) c₃, .instr (.opImm .addi .fp .sp 8) c₄] =
        some (entered s) := by
  have hsp : s.get .sp + BitVec.ofInt 32 (-8) = s.get .sp - 8 := by
    rw [show BitVec.ofInt 32 (-8) = -(8 : Word) by decide, ← BitVec.sub_eq_add_neg]
  have hget : ∀ w, (s.set .sp w).get .sp = w := fun w => State.get_set_self _ _ _ (by decide)
  have hra : s.get .sp - 8 + BitVec.ofInt 32 4 = s.get .sp - 4 := by
    rw [show BitVec.ofInt 32 4 = (4 : Word) by decide]
    bv_omega
  have hfp : s.get .sp - 8 + BitVec.ofInt 32 8 = s.get .sp := by
    rw [show BitVec.ofInt 32 8 = (8 : Word) by decide]
    bv_omega
  have h₄ := aligned_sub_four h
  have h₈ := aligned_sub_eight h
  simp only [Image.effects, Image.effect, evalOpImm, hsp, Option.bind_some, hget, hra, State.get_zero,
    State.store, if_pos h₄, State.get_setWord, add_ofInt_zero, if_pos h₈, hfp]
  rfl

/-! ### Running the code of the top level -/

/-- The words of stack that a program needs: its frame and what its code pushes. -/
def stackWords (p : Program) : Nat := listDepth p.body + 2

/-- The variables of the machine are in order, and the routine that sets up the heap leaves them
and the stack pointer alone. -/
structure Surrounded (globals : Scope) (img : Image) : Prop where
  aligned : ∀ x t, VarType globals x t → Aligned (img.address (globalLabel x))
  distinct : ∀ x t y t', VarType globals x t → VarType globals y t' →
    img.address (globalLabel x) = img.address (globalLabel y) → x = y
  heap : ∃ init, img.routine (txt "heap.init") = some init ∧ ∀ s, (init s).get .sp = s.get .sp ∧
    ∀ x t, VarType globals x t →
      (init s).mem.word (img.address (globalLabel x)) = s.mem.word (img.address (globalLabel x))

theorem Surrounded.linked {img : Image} (h : Surrounded globals img)
    (hnd : (defined img.code).Nodup) (herror : errorDiv ∉ defined img.code) :
    Linked globals img :=
  ⟨hnd, Image.target_of_notMem herror, h.aligned, h.distinct⟩

theorem main_follows (h : p.Accepted globals) (hcore : p.isCore = true)
    (layouts : List ClassLayout) :
    Ok (emitMain ⟨globals, layouts, p.mainFrame, [], .noneType, []⟩ p.body) {} fun _ code _ =>
      ∀ (img : Image) (σ : Store) (s : State), img.code = code → Surrounded globals img →
        Ready globals img σ (stackWords p) s → img.target (txt "main") = .at 0 ∧
          ∃ m text, (∀ s, img.step ⟨.at m, s⟩ = some ⟨.at (m + 1), s.set .a0 10⟩) ∧
            img.code[m + 1]? = some (.instr .ecall text) ∧
            ∀ fuel, Follows globals img 0 m (listDepth p.body) s 0 (listBound fuel)
              (execAll fuel p.body σ) := by
  have hbody : Stmt.allCore p.body = true := by
    rw [Program.isCore, Bool.and_eq_true] at hcore
    exact hcore.2
  have hsize : p.mainFrame.size = 8 := by
    simp [Frame.size, Frame.numLocals, Program.mainFrame, forCounts_of_allCore hbody,
      Frame.savedWords, wordSize]
  have hexec := executesAll (atTop h hcore layouts) 0 hbody h.valid.2 h.typed.2
  simp only [emitMain, hsize, jal, addi, sw, li, Emit.instr, ok_bind, ok_items, List.cons_append,
    List.nil_append]
  refine ((hexec {}).and_all (Stmt.genAll_numbers _ 0 p.body {})).mono
    fun _ body _ hboth => ?_
  obtain ⟨hbody, hnumbered⟩ := hboth
  intro img σ s hcode hsur hready
  have hholds : img.Holds 0 img.code := ⟨[], [], by simp, rfl⟩
  have hdefined : defined img.code = txt "main" :: defined body := by
    rw [hcode]
    simp
  have hnd : (defined img.code).Nodup := by
    rw [hdefined, List.nodup_cons]
    exact ⟨hnumbered.notMem (by decide), hnumbered.nodup⟩
  have hout : ∀ l : Label, l.getLast?.all Byte.isDigit = false → l ≠ txt "main" →
      l ∉ defined img.code := by
    intro l hl hne
    rw [hdefined, List.mem_cons, not_or]
    exact ⟨hne, hnumbered.notMem hl⟩
  have hlink := hsur.linked hnd (hout errorDiv (by decide) (by decide))
  rw [hcode] at hholds
  obtain ⟨init, hroutine, hinit⟩ := hsur.heap
  -- the first two items lead to the prologue, with the heap set up
  have hlabel : img.step ⟨.at 0, s⟩ = some ⟨.at 1, s⟩ := by
    simp only [Image.step, hholds.get]
  have hcall : img.step ⟨.at 1, s⟩ = some ⟨.at 2, init (s.set .ra (img.after 1))⟩ := by
    simp only [Image.step, hholds.tail.get, Image.exec, hroutine,
      Image.target_of_notMem (hout (txt "heap.init") (by decide) (by decide))]
  obtain ⟨s₁, hs₁⟩ : ∃ s₁, s₁ = init (s.set .ra (img.after 1)) := ⟨_, rfl⟩
  rw [← hs₁] at hcall
  have hready₁ : Ready globals img σ (listDepth p.body + 2) s₁ := by
    have hsp : s₁.get .sp = s.get .sp := by
      rw [hs₁, (hinit _).1, State.get_set_of_ne _ _ _ _ (by decide)]
    refine ⟨hsp ▸ hready.aligned, hready.room_lt, hsp.symm ▸ hready.apart, fun x t hx => ?_⟩
    rw [hs₁, (hinit _).2 x t hx, State.mem_set]
    exact hready.holds x t hx
  have hsplit : img.Holds 2 ([_, _, _, _] ++ (body ++ [_, _])) := hholds.tail.tail
  have hprologue := hsplit.left.reaches (effects_entered img hready₁.aligned _ _ _ _)
  have hrest := hsplit.right
  refine ⟨hholds.target rfl hnd, 6 + body.length, _, fun s => ?_, hrest.right.tail.get, fun fuel => ?_⟩
  · exact hrest.right.step_effect rfl
  · refine (Follows.of_reaches (((Image.Reaches.of_step hlabel).trans (.of_step hcall)).trans hprologue)
      (hbody hlink hrest.left (hready₁.entered hlink) (Nat.le_refl _) fuel)).mono (by omega) (by omega)

end Core

/-! ### Preservation -/

/-- The machine is about to run the code with the data in its memory. The words of the data have
addresses of their own, away from those that the program needs on the stack; `heap.init` returns
and leaves them and the stack pointer alone. -/
structure Program.Loaded (p : Program) (code data : List Item) (img : Image) (s : State) : Prop where
  text : img.code = code
  aligned : ∀ l ∈ defined data, Aligned (img.address l)
  distinct : ∀ l ∈ defined data, ∀ l' ∈ defined data, img.address l = img.address l' → l = l'
  words : ∀ l n text, [.globalLabel l, .word n text] <:+: data →
    s.mem.word (img.address l) = BitVec.ofInt 32 n
  stack : Aligned (s.get .sp)
  room : 4 * stackWords p < 2 ^ 32
  apart : ∀ l ∈ defined data, ¬ Below (s.get .sp) (stackWords p) (img.address l)
  heap : ∃ init, img.routine (txt "heap.init") = some init ∧ ∀ s, (init s).get .sp = s.get .sp ∧
    ∀ l ∈ defined data, (init s).mem.word (img.address l) = s.mem.word (img.address l)

/-- What the run of the machine from `start` has to do with the runs of the program. -/
structure Program.Simulated (p : Program) (img : Image) (start : Rv32.Config) : Prop where
  /-- At the call that exits, each variable has its final value. -/
  ends : ∀ σ, p.Ends σ → ∃ n text s, img.Reaches 0 start ⟨.at n, s⟩ ∧
    img.code[n]? = some (.instr .ecall text) ∧ s.get .a0 = 10 ∧
    ∀ d, .var d ∈ p.decls → ∃ v, σ d.name = some v ∧
      s.mem.word (img.address (globalLabel d.name)) = v.word
  dividesByZero : p.DividesByZero → ∃ s, img.Reaches 0 start ⟨.out errorDiv, s⟩
  diverges : p.Diverges → ∀ k, img.Runs k start
  /-- Nothing else can happen to the program. -/
  total : (∃ σ, p.Ends σ) ∨ p.DividesByZero ∨ p.Diverges

namespace Core

variable {globals : Scope} {p : Program} {code data : List Item} {img : Image} {s : State}

theorem Loaded.surrounded (h : p.Loaded code data img s)
    (hvar : ∀ x t, VarType globals x t → globalLabel x ∈ defined data) : Surrounded globals img := by
  refine ⟨fun x t hx => h.aligned _ (hvar x t hx), fun x t y t' hx hy heq => ?_, ?_⟩
  · exact List.append_cancel_left (h.distinct _ (hvar x t hx) _ (hvar y t' hy) heq)
  · obtain ⟨init, hroutine, hinit⟩ := h.heap
    exact ⟨init, hroutine, fun s => ⟨(hinit s).1, fun x t hx => (hinit s).2 _ (hvar x t hx)⟩⟩

/-- What follows the executions of the body simulates the program. -/
theorem simulated_of_follows (h : p.Declared globals) {m room : Nat} {text : Bytes}
    (hstep : ∀ s, img.step ⟨.at m, s⟩ = some ⟨.at (m + 1), s.set .a0 10⟩)
    (hcall : img.code[m + 1]? = some (.instr .ecall text))
    (hfollows : ∀ fuel, Follows globals img 0 m room s 0 (listBound fuel) (p.outcome fuel)) :
    p.Simulated img ⟨.at 0, s⟩ := by
  refine ⟨?_, ?_, fun hdiv k => ?_, ?_⟩
  · rintro σ ⟨n, hn⟩
    have hend := hfollows n
    rw [hn] at hend
    obtain ⟨s', hreach, hready⟩ := hend
    refine ⟨m + 1, text, s'.set .a0 10, (hreach.trans (.of_step (hstep s'))).mono (by omega), hcall,
      State.get_set_self _ _ _ (by decide), fun d hd => ?_⟩
    obtain ⟨v, hv, -, -, hword⟩ := hready.holds d.name d.ty (h.value?_iff.2 ⟨d, hd, rfl, rfl⟩)
    exact ⟨v, hv, by rw [State.mem_set, hword]⟩
  · rintro ⟨n, hn⟩
    have hstop := hfollows n
    rw [hn] at hstop
    exact hstop
  · have hrun := hfollows (2 * k)
    rw [hdiv] at hrun
    exact Image.Runs.mono hrun (by unfold listBound; omega)
  · by_cases hdiv : p.Diverges
    · exact .inr (.inr hdiv)
    · obtain ⟨n, hn⟩ := not_forall.1 hdiv
      have hfollow := hfollows n
      cases ho : p.outcome n with
      | ended σ => exact .inl ⟨σ, n, ho⟩
      | stopped why =>
        rw [ho] at hfollow
        cases why with
        | divZero => exact .inr (.inl ⟨n, ho⟩)
        | stuck => exact hfollow.elim
      | unfinished => exact absurd ho hn

end Core

/-- The code of an accepted core program runs as the program means. -/
theorem core_program_preserved {source : Bytes} {globals : Scope} {p : Program}
    (h : Accepts source globals p) (hcore : p.isCore = true) (layouts : List ClassLayout) :
    Ok (emitMain ⟨globals, layouts, p.mainFrame, [], .noneType, []⟩ p.body) {} fun _ code _ =>
      ∀ st, Ok (emitGlobals globals p.decls) st fun _ data _ =>
        ∀ img s, p.Loaded code data img s → p.Simulated img ⟨img.target (txt "main"), s⟩ := by
  have hacc := h.accepted
  refine (main_follows hacc hcore layouts).mono fun _ code _ hmain st => ?_
  have hvars : ∀ d ∈ p.decls, ∃ x v, d = .var x ∧ litValue? x.value.value = some v ∧
      globals.entries.value? x.name = some v.ty := by
    intro d hd
    obtain ⟨x, rfl, -⟩ := exists_var_of_isCore hcore hd
    obtain ⟨v, hv, hty, -⟩ := initial_value hacc hcore hd
    exact ⟨x, v, rfl, hv, hty ▸ hacc.declared.value?_iff.2 ⟨x, hd, rfl, rfl⟩⟩
  refine (emitGlobals_ok hvars st).mono fun _ data _ ⟨hdefined, hwords⟩ img s hload => ?_
  have hvar : ∀ x t, VarType globals x t → globalLabel x ∈ defined data := by
    intro x t hx
    obtain ⟨d, hd, rfl, -⟩ := hacc.declared.value?_iff.1 hx
    exact (hdefined _).2 ⟨d, hd, rfl⟩
  have hready : Ready globals img p.initial (stackWords p) s := by
    refine ⟨hload.stack, hload.room, fun x t hx => hload.apart _ (hvar x t hx), fun x t hx => ?_⟩
    obtain ⟨d, hd, rfl, rfl⟩ := hacc.declared.value?_iff.1 hx
    obtain ⟨v, hv, hty, hfits⟩ := initial_value hacc hcore hd
    obtain ⟨n, text, hinfix, hn⟩ := hwords d v hd hv
    refine ⟨v, (initial_of_var hacc.declared hd).trans hv, hty, hfits, ?_⟩
    rw [hload.words _ n text hinfix, hn]
  obtain ⟨hstart, m, text, hstep, hcall, hfollows⟩ :=
    hmain img p.initial s hload.text (Loaded.surrounded hload hvar) hready
  rw [hstart]
  exact simulated_of_follows hacc.declared hstep hcall hfollows

/-! ### A program on a machine -/

def halving : Bytes := txt "x:int = 7\nwhile x > 1:\n    x = x // 2\n"

/-- The word of the variable is at 65536. -/
def halvingImage (code : List Item) : Image :=
  { code, address := fun _ => 65536, scratch := fun _ => 0, after := fun _ => 0
    place := fun _ => .out [], routine := fun _ => some id }

/-- All registers point to a stack under 131072. -/
def halvingState : State := ⟨fun _ => 131072, Memory.setWord (fun _ => 0) 65536 7⟩

theorem halving_loaded {p : Program} (hp : stackWords p = 3) (code : List Item) (text : Bytes) :
    p.Loaded code [.globalLabel (txt "$x"), .word 7 text] (halvingImage code) halvingState := by
  refine ⟨rfl, fun _ _ => (by decide : Aligned 65536), fun l hl l' hl' _ => ?_, fun l n text hinfix => ?_, by decide,
    by rw [hp]; decide, fun l _ => ?_, id, rfl, fun s => ⟨rfl, fun _ _ => rfl⟩⟩
  · exact (List.mem_singleton.1 hl).trans (List.mem_singleton.1 hl').symm
  · cases hinfix.eq_of_length rfl
    exact Memory.word_setWord _ _ _
  · rw [hp]
    rintro ⟨k, hk, heq⟩
    have hsp : halvingState.get .sp = 131072 := rfl
    rw [hsp] at heq
    replace heq : (65536 : Word) = 131072 - BitVec.ofNat 32 (4 * (k + 1)) := heq
    bv_omega

theorem halving_preserved : ∃ globals p, Accepts halving globals p ∧ p.isCore = true ∧
    Ok (emitMain ⟨globals, [], p.mainFrame, [], .noneType, []⟩ p.body) {} fun _ code _ =>
      ∃ data, p.Loaded code data (halvingImage code) halvingState ∧
        ∃ n text s, (halvingImage code).Reaches 0
            ⟨(halvingImage code).target (txt "main"), halvingState⟩ ⟨.at n, s⟩ ∧
          code[n]? = some (.instr .ecall text) ∧ s.mem.word 65536 = 1 := by
  have hrun : (accepted? halving).any (fun r => r.2.isCore = true ∧
      (emitGlobals r.1 r.2.decls {}).toOption.map (·.2.1) =
        some [.globalLabel (txt "$x"), .word 7 (txt "global x")] ∧ stackWords r.2 = 3 ∧
      (r.2.outcome 20).value? (txt "x") = some (.int 1) ∧
      r.2.decls.map (·.ident.name) = [txt "x"]) = true := by decide +kernel
  obtain ⟨⟨globals, p⟩, hr, hfacts⟩ := (Option.any_eq_true _ _).1 hrun
  obtain ⟨hcore, hdata, hwords, hends, hdecls⟩ := of_decide_eq_true hfacts
  have hacc := accepts_of_accepted? hr
  refine ⟨globals, p, hacc, hcore, ?_⟩
  refine (core_program_preserved hacc hcore []).mono fun _ code _ hcode => ?_
  obtain ⟨_, data, st, hemit, hsim⟩ := hcode {}
  obtain ⟨σ, hσ, hx⟩ := Outcome.exists_of_value? hends
  rw [hemit] at hdata
  cases hdata
  have hload := halving_loaded hwords code (txt "global x")
  obtain ⟨n, text, s, hreach, hcall, -, hvars⟩ := (hsim _ _ hload).ends σ ⟨20, hσ⟩
  refine ⟨_, hload, n, text, s, hreach, hcall, ?_⟩
  obtain ⟨d, hd, hname⟩ := List.mem_map.1 (hdecls ▸ List.mem_singleton_self (txt "x"))
  obtain ⟨x, rfl, -⟩ := exists_var_of_isCore hcore hd
  obtain ⟨v, hv, hword⟩ := hvars x hd
  obtain rfl : v = .int 1 := Option.some.inj (hv.symm.trans ((congrArg σ hname).trans hx))
  exact hword

end ChocoRv
