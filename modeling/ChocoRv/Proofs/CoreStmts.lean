import ChocoRv.Proofs.CoreExprs

/-!
# Code of core statements

The code of a statement follows its execution: it comes to its end with the variables that the
statement leaves, or to `error.Div`, and it takes more and more steps while the execution is
unfinished. Loops go by induction on the number of steps that the execution is given.
-/

namespace ChocoRv.Core

open Asm Rv32 Codegen Emit

/-! ### Following an execution -/

/-- From item `n` the machine does what the outcome says. It is at item `m` when the execution has
ended, after at least `j` steps, and takes at least `k` steps if the execution is unfinished. -/
def Follows (globals : Scope) (img : Image) (n m room : Nat) (s : State) (j k : Nat) : Outcome → Prop
  | .ended σ => ∃ s', img.Reaches j ⟨.at n, s⟩ ⟨.at m, s'⟩ ∧ Ready globals img σ room s'
  | .stopped .divZero => ∃ s', img.Reaches j ⟨.at n, s⟩ ⟨.out errorDiv, s'⟩
  | .stopped .stuck => False
  | .unfinished => img.Runs k ⟨.at n, s⟩

namespace Follows

variable {globals : Scope} {img : Image} {n n' m m' room i j j' k k' : Nat} {s s' : State} {o : Outcome}

theorem unfinished : Follows globals img n m room s j 0 .unfinished := rfl

theorem cast (h : Follows globals img n m room s j k o) (hm : m = m') :
    Follows globals img n m' room s j k o := hm ▸ h

theorem mono (h : Follows globals img n m room s j k o) (hj : j' ≤ j) (hk : k' ≤ k) :
    Follows globals img n m room s j' k' o := by
  match o, h with
  | .ended σ, ⟨s', hreach, hready⟩ => exact ⟨s', hreach.mono hj, hready⟩
  | .stopped .divZero, ⟨s', hreach⟩ => exact ⟨s', hreach.mono hj⟩
  | .unfinished, h => exact Image.Runs.mono h hk

/-- Some way to where the execution starts. -/
theorem of_reaches (hreach : img.Reaches i ⟨.at n, s⟩ ⟨.at n', s'⟩)
    (h : Follows globals img n' m room s' j k o) :
    Follows globals img n m room s (i + j) (i + k) o := by
  match o, h with
  | .ended σ, ⟨s₁, hreach₁, hready⟩ => exact ⟨s₁, hreach.trans hreach₁, hready⟩
  | .stopped .divZero, ⟨s₁, hreach₁⟩ => exact ⟨s₁, hreach.trans hreach₁⟩
  | .unfinished, h => exact hreach.runs h

/-- Some way on from where the execution ends. -/
theorem through (h : Follows globals img n m room s j k o)
    (hreach : ∀ s', img.Reaches 1 ⟨.at m, s'⟩ ⟨.at m', s'⟩) :
    Follows globals img n m' room s j k o := by
  match o, h with
  | .ended σ, ⟨s₁, hreach₁, hready⟩ =>
    exact ⟨s₁, (hreach₁.trans (hreach s₁)).mono (by omega), hready⟩
  | .stopped .divZero, h => exact h
  | .unfinished, h => exact h

theorem andThen (h : Follows globals img n m room s j k o) {rest : Store → Outcome}
    (hrest : ∀ σ s', Ready globals img σ room s' →
      Follows globals img m m' room s' 0 k' (rest σ)) :
    Follows globals img n m' room s j (min k (j + k')) (o.andThen rest) := by
  match o, h with
  | .ended σ, ⟨s₁, hreach, hready⟩ =>
    exact (of_reaches hreach (hrest σ s₁ hready)).mono (by omega) (by omega)
  | .stopped .divZero, h => exact h
  | .unfinished, h => exact Image.Runs.mono h (by omega)

/-- An evaluation before the execution. -/
theorem after {α : Type} {code : List Item} {post : α → State → Prop} {r : Except Stop α}
    (h : Lands img n code room s post r) {rest : α → Outcome}
    (hrest : ∀ a s', Kept room s s' → post a s' →
      Follows globals img (n + code.length) m room s' 0 k (rest a)) :
    Follows globals img n m room s 1 (1 + k) (.after r rest) := by
  match r, h with
  | .ok a, ⟨s₁, hreach, hkept, ha⟩ =>
    exact (of_reaches hreach (hrest a s₁ hkept ha)).mono (by omega) (by omega)
  | .error .divZero, h => exact h

end Follows

/-- The code is there and follows the execution `run` with at most `depth` words on the stack. -/
def Executes (globals : Scope) (x : Emit Unit) (depth j : Nat) (bound : Nat → Nat)
    (run : Nat → Store → Outcome) : Prop :=
  ∀ st, Ok x st fun _ code _ => ∀ {img : Image} {n room : Nat} {σ : Store} {s : State},
    Linked globals img → img.Holds n code → Ready globals img σ room s → depth ≤ room →
      ∀ fuel, Follows globals img n (n + code.length) room s j (bound fuel) (run fuel σ)

variable {globals : Scope} {c : Codegen.Context} {t : Ty}

/-! ### Assignments -/

/-- The state after storing `a0` into a variable. -/
def stored (img : Image) (s : State) (x : Name) : State :=
  (s.setWord (img.address (globalLabel x)) (s.get .a0)).set .t0 (img.scratch (globalLabel x))

theorem get_stored {img : Image} {s : State} {x : Name} {r : Reg} (h : r ≠ .t0) :
    (stored img s x).get r = s.get r := by
  rw [stored, State.get_set_of_ne _ _ _ _ h, State.get_setWord]

theorem effect_store {img : Image} (hlink : Linked globals img) {x : Name}
    (hx : VarType globals x t) (s : State) :
    img.effect s (.storeLabel .a0 (globalLabel x) .t0) = some (stored img s x) := by
  rw [Image.effect, State.store, if_pos (hlink.aligned x t hx)]
  rfl

/-- A variable takes the value whose word is stored. -/
theorem Ready.stored {img : Image} {σ : Store} {room : Nat} {s : State} {x : Name} {v : Value}
    (h : Ready globals img σ room s) (hlink : Linked globals img) (hx : VarType globals x t)
    (ha : s.get .a0 = v.word) (hty : v.ty = t) (hfits : v.Fits) :
    Ready globals img (σ.set x v) room (Core.stored img s x) := by
  have hsp : (Core.stored img s x).get .sp = s.get .sp := get_stored (by decide)
  refine ⟨hsp ▸ h.aligned, h.room_lt, hsp.symm ▸ h.apart, fun y t' hy => ?_⟩
  simp only [Core.stored, State.mem_set, State.mem_setWord]
  by_cases hxy : y = x
  · subst hxy
    obtain rfl : t' = t := Option.some.inj (hy.symm.trans hx)
    refine ⟨v, if_pos rfl, hty, hfits, ?_⟩
    rw [Memory.word_setWord, ha]
  · obtain ⟨v', hv', hty', hfits', hword⟩ := h.holds y t' hy
    refine ⟨v', (if_neg hxy).trans hv', hty', hfits', ?_⟩
    rw [Memory.word_setWord_of_ne _ _ (hlink.aligned x t hx) (hlink.aligned y t' hy)
      fun heq => hxy (hlink.distinct y t' x t hy hx heq), hword]

/-- A target that is a variable of the type. -/
def IsVar (globals : Scope) (t : Ty) (e : Expr) : Prop :=
  ∃ id, e = .name id ∧ VarType globals id.name t ∧ e.type? = some t

theorem box_of_scalar {value : Option Ty} (h : IsScalar t) : box value (some t) = pure () := by
  rcases h with rfl | rfl <;> rfl

theorem store_name {id : Ident} (h : c.frame.depth = 0) :
    store c (.name id) =
      items [.instr (.storeLabel .a0 (globalLabel id.name) .t0) (txt "global " ++ id.name)] := by
  simp only [store, storeVariable, resolve_top h, instrOf]

/-- Each target takes the value whose word is on top of the stack. -/
theorem storeAll_effects (hc : c.frame.depth = 0) (hs : IsScalar t) : ∀ {targets : List Expr},
    (∀ e ∈ targets, IsVar globals t e) → ∀ st, Ok (storeAll c (some t) targets) st
      fun _ code _ => ∀ {img : Image} {room : Nat} {σ : Store} {s : State} {v : Value},
        Linked globals img → Ready globals img σ room s → v.ty = t → v.Fits →
        s.mem.word (s.get .sp) = v.word →
        (∀ x t, VarType globals x t → img.address (globalLabel x) ≠ s.get .sp) →
          ∃ σ' s', assign v targets σ = .ok σ' ∧ img.effects s code = some s' ∧
            Ready globals img σ' room s' ∧ s'.get .sp = s.get .sp
  | [], _, st => by
    simp only [storeAll, ok_pure]
    intro img room σ s v _ hready _ _ _ _
    exact ⟨σ, s, rfl, rfl, hready, rfl⟩
  | e :: es, htargets, st => by
    obtain ⟨⟨id, rfl, hx, htype⟩, hes⟩ := List.forall_mem_cons.1 htargets
    simp only [storeAll, htype, box_of_scalar hs, store_name hc, lw, Emit.instr, pure_bind, ok_bind,
      ok_items, List.cons_append, List.nil_append]
    refine (storeAll_effects hc hs hes st).mono fun _ code _ hcode => ?_
    intro img room σ s v hlink hready hty hfits htop hapart
    obtain ⟨s₁, hs₁⟩ : ∃ s₁, s₁ = s.set .a0 v.word := ⟨_, rfl⟩
    have hsp₁ : s₁.get .sp = s.get .sp := hs₁ ▸ sp_set_of_ne _ _ (by decide)
    have hmem₁ : s₁.mem = s.mem := hs₁ ▸ State.mem_set ..
    have hload : img.effect s (.load .lw .a0 .sp 0) = some s₁ := by
      rw [Image.effect, add_ofInt_zero, State.load, if_pos hready.aligned, htop, hs₁]
      rfl
    have hready₁ : Ready globals img (σ.set id.name v) room (stored img s₁ id.name) :=
      (hready.kept hlink (.of_mem hsp₁ hmem₁)).stored hlink hx
        (hs₁ ▸ State.get_set_self _ _ _ (by decide)) hty hfits
    have hsp₂ : (stored img s₁ id.name).get .sp = s.get .sp := (get_stored (by decide)).trans hsp₁
    have htop₂ : (stored img s₁ id.name).mem.word ((stored img s₁ id.name).get .sp) = v.word := by
      rw [hsp₂]
      simp only [stored, State.mem_set, State.mem_setWord, hmem₁]
      rw [Memory.word_setWord_of_ne _ _ (hlink.aligned _ t hx) hready.aligned
        fun heq => hapart _ t hx heq.symm, htop]
    obtain ⟨σ', s', hassign, heffects, hready', hsp'⟩ := hcode hlink hready₁ hty hfits htop₂
      (hsp₂.symm ▸ hapart)
    refine ⟨σ', s', hassign, ?_, hready', hsp'.trans hsp₂⟩
    simp only [Image.effects, hload, effect_store hlink hx, Option.bind_some, heffects]

/-- The steps that an unfinished execution of a statement has taken at least. -/
def stmtBound (fuel : Nat) : Nat := (fuel + 1) / 2

def listBound (fuel : Nat) : Nat := fuel / 2

/-- A statement that evaluates an expression and then ends. -/
theorem expr_executes {x : Emit Unit} {e : Expr} {d : Nat} (loc : Loc)
    (h : Evaluates globals x d (Result t) (eval · e)) :
    Executes globals x d 1 stmtBound (exec · (.expr loc e)) := by
  refine fun st => (h st).mono fun _ code _ hcode => ?_
  intro img n room σ s hlink hholds hready hdepth fuel
  cases fuel with
  | zero => exact .unfinished
  | succ fuel =>
    refine (Follows.after (k := fuel) (hcode hlink hholds hready hdepth) fun v s' hkept _ => ?_).mono
      (Nat.le_refl 1) (by unfold stmtBound; omega)
    exact ⟨s', .refl _, hready.kept hlink hkept⟩

/-- Code without jumps that gives the value in `a0` to the targets. -/
def Assigns (globals : Scope) (t : Ty) (targets : List Expr) (code : List Item) : Prop :=
  ∀ {img : Image} {room : Nat} {σ : Store} {s : State} {v : Value}, Linked globals img →
    Ready globals img σ room s → 1 ≤ room → Result t v s →
      ∃ σ' s', assign v targets σ = .ok σ' ∧ img.effects s code = some s' ∧
        Ready globals img σ' room s'

theorem store_assigns {id : Ident} (hx : VarType globals id.name t) (text : Bytes) :
    Assigns globals t [.name id] [.instr (.storeLabel .a0 (globalLabel id.name) .t0) text] := by
  intro img room σ s v hlink hready _ ⟨ha, hty, hfits⟩
  refine ⟨σ.set id.name v, stored img s id.name, rfl, ?_, hready.stored hlink hx ha hty hfits⟩
  simp only [Image.effects, effect_store hlink hx, Option.bind_some]

/-- Several targets take the value from the stack. -/
theorem storeAll_assigns (hc : c.frame.depth = 0) (hs : IsScalar t) {targets : List Expr}
    (htargets : ∀ e ∈ targets, IsVar globals t e) (st : EmitState) :
    Ok (do push .a0 "keep assigned value"; storeAll c (some t) targets; popDiscard 1) st
      fun _ code _ => Assigns globals t targets code := by
  simp only [push, popDiscard, addi, sw, Emit.instr, ok_bind, ok_items, List.cons_append,
    List.nil_append]
  refine (storeAll_effects hc hs htargets st).mono fun _ code _ hcode => ?_
  intro img room σ s v hlink hready hroom hres
  obtain ⟨ha, hty, hfits⟩ := hres
  obtain ⟨room, rfl⟩ : ∃ k, room = k + 1 := ⟨room - 1, by omega⟩
  have htop : (pushed s .a0).mem.word ((pushed s .a0).get .sp) = v.word := by
    rw [sp_pushed, ← ha]
    simp [pushed]
  have hapart : ∀ x t, VarType globals x t →
      img.address (globalLabel x) ≠ (pushed s .a0).get .sp := fun x t hx heq =>
    hready.apart x t hx (by rw [heq, sp_pushed]; exact below_top)
  obtain ⟨σ', s', hassign, heffects, hready', hsp⟩ :=
    hcode hlink (hready.pushed hlink .a0) hty hfits htop hapart
  refine ⟨σ', s'.set .sp (s.get .sp), hassign, ?_, ?_⟩
  · have hback : s'.get .sp + BitVec.ofInt 32 ((wordSize * 1 : Nat) : Int) = s.get .sp := by
      rw [hsp, sp_pushed, show BitVec.ofInt 32 ((wordSize * 1 : Nat) : Int) = 4 by decide]
      bv_omega
    rw [wordSize_cast, effects_push img (by decide) hready.aligned, Image.effects_append, heffects]
    simp only [Option.bind_some, Image.effects, Image.effect, evalOpImm, hback]
  · have hsp' : (s'.set .sp (s.get .sp)).get .sp = s.get .sp := State.get_set_self _ _ _ (by decide)
    refine ⟨hsp'.symm ▸ hready.aligned, hready.room_lt, hsp'.symm ▸ hready.apart, fun x t hx => ?_⟩
    rw [State.mem_set]
    exact hready'.holds x t hx

theorem assign_executes (hc : c.frame.depth = 0) (hs : IsScalar t) {targets : List Expr}
    {value : Expr} {d : Nat} (loc : Loc) (ht : value.type? = some t)
    (htargets : ∀ e ∈ targets, IsVar globals t e)
    (h : Evaluates globals (value.gen c) d (Result t) (eval · value)) :
    Executes globals (Codegen.assign c targets value) (max d 1) 1 stmtBound
      (exec · (.assign loc targets value)) := by
  intro st
  unfold Codegen.assign
  rw [ok_bind]
  refine (h st).mono fun _ A st₁ hA => ?_
  have hrest : ∀ {x : Emit Unit}, Ok x st₁ (fun _ code _ => Assigns globals t targets code) →
      Ok x st₁ fun _ code _ => ∀ {img : Image} {n room : Nat} {σ : Store} {s : State},
        Linked globals img → img.Holds n (A ++ code) → Ready globals img σ room s →
          max d 1 ≤ room → ∀ fuel, Follows globals img n (n + (A ++ code).length) room s 1
            (stmtBound fuel) (exec fuel (.assign loc targets value) σ) := by
    intro x hx
    refine hx.mono fun _ B _ hB => ?_
    intro img n room σ s hlink hholds hready hdepth fuel
    cases fuel with
    | zero => exact .unfinished
    | succ fuel =>
      refine (Follows.after (k := fuel) (hA hlink hholds.left hready (by omega))
        fun v s₁ hkept hv => ?_).mono (Nat.le_refl 1) (by unfold stmtBound; omega)
      obtain ⟨σ', s', hassign, heffects, hready'⟩ :=
        hB hlink (hready.kept hlink hkept) (by omega) hv
      rw [hassign]
      refine ⟨s', ?_, hready'⟩
      rw [List.length_append, ← Nat.add_assoc]
      exact (hholds.right.reaches heffects).mono (Nat.zero_le _)
  rw [ht]
  split
  · obtain ⟨id, rfl, hx, htype⟩ := htargets _ (List.mem_singleton.2 rfl)
    refine hrest ?_
    simp only [htype, box_of_scalar hs, store_name hc, pure_bind, ok_items]
    exact store_assigns hx _
  · exact hrest (storeAll_assigns hc hs htargets st₁)

/-! ### Branches and loops -/

/-- A test after which the code branches. -/
theorem Follows.test {img : Image} {n m room k : Nat} {s : State} {code : List Item}
    {r : Except Stop Value} {rest : Bool → Outcome}
    (h : Lands img n code room s (Result .bool) r)
    (hrest : ∀ b s', Kept room s s' → s'.get .a0 = ofBool b →
      Follows globals img (n + code.length) m room s' 0 k (rest b)) :
    Follows globals img n m room s 1 (1 + k) (.after r fun v => .after (truth v) rest) := by
  refine .after h fun v s' hkept ⟨hv, hty, _⟩ => ?_
  obtain ⟨b, rfl⟩ := Value.eq_bool hty
  exact hrest b s' hkept hv

theorem execAll_nil_follows {img : Image} {n room : Nat} {s : State} {σ : Store}
    (h : Ready globals img σ room s) (fuel : Nat) :
    Follows globals img n n room s 0 (listBound fuel) (execAll fuel [] σ) := by
  cases fuel with
  | zero => exact .unfinished
  | succ fuel => exact ⟨s, .refl _, h⟩

variable {test yes no body : Emit Unit} {e : Expr} {ys ns : List Stmt} {dt dy dn : Nat}

theorem ifThen_executes (loc : Loc) (ht : Evaluates globals test dt (Result .bool) (eval · e))
    (hy : Executes globals yes dy 0 listBound (execAll · ys)) :
    Executes globals (conditional test yes none) (max dt dy) 1 stmtBound
      (exec · (.ite loc e ys [])) := by
  intro st
  simp only [conditional, label, beqz, Emit.instr, ok_bind, ok_fresh, ok_items, List.nil_append]
  refine (ht st).mono fun _ A _ hA => (hy _).mono fun _ B _ hB => ?_
  intro img n room σ s hlink hholds hready hdepth fuel
  simp only [List.cons_append, List.nil_append] at hholds ⊢
  cases fuel with
  | zero => exact .unfinished
  | succ fuel =>
    refine (Follows.test (k := listBound fuel) (hA hlink hholds.left hready (by omega))
      fun b s₁ hkept hb => ?_).mono (Nat.le_refl 1) (by unfold stmtBound listBound; omega)
    have hready₁ := hready.kept hlink hkept
    refine .cast (m := n + A.length + B.length + 2) ?_ (by
      simp only [List.length_cons, List.length_append, List.length_nil]
      omega)
    have hbranch := (skip_reaches hlink.unique hholds.right s₁).1
    rw [hb, holdsZero_beqz_ofBool] at hbranch
    cases b with
    | true =>
      refine (Follows.of_reaches hbranch (.through (hB hlink hholds.right.tail.left hready₁
        (by omega) fuel) fun s' => ?_)).mono (Nat.zero_le _) (by omega)
      exact (skip_reaches hlink.unique hholds.right s').2
    | false =>
      exact (Follows.of_reaches hbranch (execAll_nil_follows hready₁ fuel)).mono (Nat.zero_le _)
        (by omega)

theorem ifElse_executes (loc : Loc) (ht : Evaluates globals test dt (Result .bool) (eval · e))
    (hy : Executes globals yes dy 0 listBound (execAll · ys))
    (hn : Executes globals no dn 0 listBound (execAll · ns)) :
    Executes globals (conditional test yes (some no)) (max dt (max dy dn)) 1 stmtBound
      (exec · (.ite loc e ys ns)) := by
  intro st
  simp only [conditional, label, beqz, j, Emit.instr, ok_bind, ok_fresh, ok_items, List.nil_append]
  refine (ht st).mono fun _ A _ hA => (hy _).mono fun _ B _ hB => (hn _).mono fun _ C _ hC => ?_
  intro img n room σ s hlink hholds hready hdepth fuel
  simp only [List.cons_append, List.nil_append] at hholds ⊢
  cases fuel with
  | zero => exact .unfinished
  | succ fuel =>
    refine (Follows.test (k := listBound fuel) (hA hlink hholds.left hready (by omega))
      fun b s₁ hkept hb => ?_).mono (Nat.le_refl 1) (by unfold stmtBound listBound; omega)
    have hready₁ := hready.kept hlink hkept
    refine .cast (m := n + A.length + B.length + C.length + 4) ?_ (by
      simp only [List.length_cons, List.length_append, List.length_nil]
      omega)
    have hbranch := (ifElse_reaches hlink.unique hholds.right s₁).1 b hb
    cases b with
    | true =>
      refine (Follows.of_reaches hbranch (.through (hB hlink hholds.right.tail.left hready₁
        (by omega) fuel) fun s' => ?_)).mono (Nat.zero_le _) (by omega)
      exact (ifElse_reaches hlink.unique hholds.right s').2.1
    | false =>
      refine (Follows.of_reaches hbranch (.through (hC hlink
        hholds.right.tail.right.tail.tail.left hready₁ (by omega) fuel) fun s' => ?_)).mono
          (Nat.zero_le _) (by omega)
      exact (ifElse_reaches hlink.unique hholds.right s').2.2

theorem loop_executes (loc : Loc) (ht : Evaluates globals test dt (Result .bool) (eval · e))
    (hb : Executes globals body dy 0 listBound (execAll · ys)) :
    Executes globals (whileLoop test body) (max dt dy) 1 stmtBound (exec · (.loop loc e ys)) := by
  intro st
  simp only [whileLoop, label, beqz, j, Emit.instr, ok_bind, ok_fresh, ok_items, List.nil_append]
  refine (ht _).mono fun _ A _ hA => (hb _).mono fun _ B _ hB => ?_
  intro img n room σ s hlink hholds hready hdepth fuel
  simp only [List.cons_append, List.nil_append] at hholds ⊢
  -- the machine is back at the first label with one step less to go
  induction fuel generalizing σ s with
  | zero => exact .unfinished
  | succ fuel ih =>
    have hlabel := Image.Reaches.of_step (hholds.step_label (s := s))
    refine (Follows.of_reaches hlabel (.test (k := stmtBound fuel) (hA hlink hholds.tail.left hready
      (by omega)) fun b s₁ hkept hb => ?_)).mono (by omega) (by unfold stmtBound; omega)
    have hready₁ := hready.kept hlink hkept
    have hrest := hholds.tail.right
    have hend := hrest.tail.right
    have hbranch := Image.Reaches.of_step (hrest.step_branchZero (s := s₁))
    rw [hb, holdsZero_beqz_ofBool, hend.tail.target rfl hlink.unique] at hbranch
    cases b with
    | true =>
      have hback : ∀ s', img.Reaches 1 ⟨.at (n + 1 + A.length + 1 + B.length), s'⟩ ⟨.at n, s'⟩ := by
        intro s'
        have hj := Image.Reaches.of_step (hend.step_j (s := s'))
        rwa [hholds.target rfl hlink.unique] at hj
      have hbody := hB hlink hrest.tail.left hready₁ (by omega) fuel
      have hagain : ∀ σ' s', Ready globals img σ' room s' → Follows globals img _ _ room s' 0
          (1 + stmtBound fuel) (exec fuel (.loop loc e ys) σ') := fun σ' s' hready' =>
        (Follows.of_reaches (hback s') (ih hready')).mono (Nat.zero_le _) (Nat.le_refl _)
      exact (Follows.of_reaches hbranch (hbody.andThen hagain)).mono (Nat.zero_le _)
        (by unfold stmtBound listBound; omega)
    | false =>
      refine .cast (m := n + 1 + A.length + 1 + B.length + 1 + 1) ?_ (by
        simp only [List.length_cons, List.length_append, List.length_nil]
        omega)
      refine ⟨s₁, ?_, hready₁⟩
      exact (hbranch.trans (.of_step hend.tail.step_label)).mono (Nat.zero_le _)

/-! ### All statements -/

mutual

/-- The words that the code of a statement needs on the stack. -/
def stmtDepth : Stmt → Nat
  | .expr _ e => depth e
  | .assign _ _ value => max (depth value) 1
  | .ite _ test yes no => max (depth test) (max (listDepth yes) (listDepth no))
  | .loop _ test body => max (depth test) (listDepth body)
  | .each .. | .ret .. => 0

def listDepth : List Stmt → Nat
  | [] => 0
  | s :: ss => max (stmtDepth s) (listDepth ss)

end

/-- The targets of an assignment are variables of the type of the value. -/
theorem isVar_of_targetTyped (hc : AtTop globals c) (hs : IsScalar t) {e : Expr}
    (hname : e.isName = true) (h : Typing.TargetTyped (.ofGlobals globals) t e) :
    IsVar globals t e := by
  obtain ⟨htyped, -, place, hplace, hcompat⟩ := h
  cases e with
  | name id =>
    simp only [Expr.Typed] at htyped
    obtain ⟨t', ht', hget⟩ := htyped
    obtain rfl : place = t' := Option.some.inj (hplace.symm.trans ht')
    have hx := varType_of_get? hget
    obtain rfl := hc.exact place t (hc.scalar _ _ hx) hs hcompat
    exact ⟨id, rfl, hx, hplace⟩
  | _ => cases hname

mutual

/-- The code of every core statement executes it. -/
theorem executes (hc : AtTop globals c) (k : Nat) : ∀ {s : Stmt}, s.isCore = true → s.Valid →
    s.Typed (.ofGlobals globals) →
      Executes globals (s.gen c k) (stmtDepth s) 1 stmtBound (exec · s)
  | .expr loc e, hcore, hvalid, htyped => by
    simp only [Stmt.isCore, Stmt.Valid, Stmt.Typed] at hcore hvalid htyped
    obtain ⟨t, ht⟩ := htyped.hasType
    exact expr_executes loc (evaluates hc hcore hvalid htyped ht).2
  | .assign loc targets value, hcore, hvalid, htyped => by
    simp only [Stmt.isCore, Bool.and_eq_true, List.all_eq_true] at hcore
    simp only [Stmt.Valid, Stmt.Typed] at hvalid htyped
    obtain ⟨hvalue, t, ht, htargets, -⟩ := htyped
    obtain ⟨hs, he⟩ := evaluates hc hcore.2 hvalid.2.2 hvalue ht
    exact assign_executes hc.depth hs loc ht
      (fun e hmem => isVar_of_targetTyped hc hs (hcore.1 e hmem) (htargets e hmem)) he
  | .ite loc test yes no, hcore, hvalid, htyped => by
    simp only [Stmt.isCore, Bool.and_eq_true] at hcore
    simp only [Stmt.Valid, Stmt.Typed] at hvalid htyped
    obtain ⟨htest, hbool, hyes, hno⟩ := htyped
    have ht := (evaluates hc hcore.1.1 hvalid.1 htest hbool).2
    have hy := executesAll hc k hcore.1.2 hvalid.2.1 hyes
    have hn := executesAll hc (k + Stmt.forCounts yes) hcore.2 hvalid.2.2 hno
    cases no with
    | nil =>
      simpa [Stmt.gen, stmtDepth, listDepth] using ifThen_executes loc ht hy
    | cons s ss => exact ifElse_executes loc ht hy hn
  | .loop loc test body, hcore, hvalid, htyped => by
    simp only [Stmt.isCore, Bool.and_eq_true] at hcore
    simp only [Stmt.Valid, Stmt.Typed] at hvalid htyped
    obtain ⟨htest, hbool, hbody⟩ := htyped
    exact loop_executes loc (evaluates hc hcore.1 hvalid.1 htest hbool).2
      (executesAll hc k hcore.2 hvalid.2 hbody)
  | .each .., hcore, _, _ | .ret .., hcore, _, _ => by simp [Stmt.isCore] at hcore

theorem executesAll (hc : AtTop globals c) (k : Nat) : ∀ {ss : List Stmt},
    Stmt.allCore ss = true → Stmt.AllValid ss → Stmt.AllTyped (.ofGlobals globals) ss →
      Executes globals (Stmt.genAll c k ss) (listDepth ss) 0 listBound (execAll · ss)
  | [], _, _, _ => by
    intro st
    simp only [Stmt.genAll, ok_pure]
    intro img n room σ s _ _ hready _ fuel
    exact execAll_nil_follows hready fuel
  | s :: ss, hcore, hvalid, htyped => by
    simp only [Stmt.allCore, Bool.and_eq_true] at hcore
    simp only [Stmt.AllValid, Stmt.AllTyped] at hvalid htyped
    intro st
    simp only [Stmt.genAll, ok_bind]
    refine (executes hc k hcore.1 hvalid.1 htyped.1 st).mono fun _ A st₁ hA =>
      (executesAll hc _ hcore.2 hvalid.2 htyped.2 st₁).mono fun _ B _ hB => ?_
    intro img n room σ s₀ hlink hholds hready hdepth fuel
    rw [listDepth] at hdepth
    cases fuel with
    | zero => exact .unfinished
    | succ fuel =>
      rw [List.length_append, ← Nat.add_assoc]
      refine (Follows.andThen (hA hlink hholds.left hready (by omega) fuel) fun σ' s' hready' =>
        hB hlink hholds.right hready' (by omega) fuel).mono (by omega)
          (by unfold stmtBound listBound; omega)

end

end ChocoRv.Core
