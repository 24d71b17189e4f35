import Mathlib.Logic.Relation
import LRMachine.Proofs.Levels

/-!
# Runs

A user makes calls on a parse. `Reachable` holds of the parses between the calls. Inside a call
`advance` makes many steps, closes nested grammars and shifts their placeholders; `Move` is the
relation between two neighbouring points of such a run, each with the task that the call is at, and
`Visited` holds of all points. `Reachable.visited` and `halts_of_advance` say that the calls do
nothing but move from point to point: what holds at every point holds of what a call comes to.
-/

namespace LRMachine

namespace Parse

/-! ## Calls -/

/-- What a user can ask of a parse. -/
inductive Call where
  | step (token : Token)
  | advance (token : Token)

/-- The token of a call. -/
def Call.token : Call → Token
  | step token => token
  | advance token => token

/-- The computation of a call. -/
def Call.run (fuel : Nat) : Call → ParseM Step
  | step token => Parse.step token
  | advance token => Parse.advance fuel token

/-- The calls that a user may make, and whether the user goes on after an error. -/
structure User where
  makes : Call → Prop
  persists : Prop

/-- Makes any calls with any tokens and goes on after errors. -/
def User.anyone : User := ⟨fun _ => True, True⟩

/-- Makes any calls with any tokens and stops at the first error. -/
def User.cautious : User := ⟨fun _ => True, False⟩

/-- Makes calls with tokens that end within 64 bits and goes on after errors. -/
def User.inRange : User := ⟨fun c => c.token.stop?.isSome = true, True⟩

/-- The parses between the calls of a user. A call that never comes back ends the run. -/
inductive Reachable (t : Tables) (o : Options) (u : User) : Parse → Prop where
  | new : Reachable t o u (new t o)
  | ok {p q : Parse} {made : Step} (before : Reachable t o u p) (c : Call) (fuel : Nat)
    (hc : u.makes c) (h : c.run fuel p = .ok made q) : Reachable t o u q
  | error {p q : Parse} {e : Error} (before : Reachable t o u p) (c : Call) (fuel : Nat)
    (hc : u.makes c) (hu : u.persists) (h : c.run fuel p = .error (.error e) q) :
    Reachable t o u q

/-! ## Points of a run -/

/-- What a parse is at. -/
inductive Task where
  /-- Between two calls. -/
  | idle
  /-- Making a single step. -/
  | stepping (token : Token)
  /-- Looking whether the token ends the innermost nested grammar. -/
  | opening (token : Token)
  /-- Driving the nested grammar that was entered at `entry` to acceptance. -/
  | driving (token : Token) (entry : Suspension)
  /-- Going back to the grammar around it. -/
  | leaving (token : Token) (entry : Suspension)
  /-- Shifting the placeholder of the nested region there. -/
  | mounting (token : Token) (entry : Suspension)
  /-- Feeding the token itself. -/
  | feeding (token : Token)

namespace Task

/-- The token that the next step is made with. -/
def lookahead : Task → Option Token
  | stepping token => some token
  | driving token _ => some (Token.eof token.start)
  | mounting token entry => some (placeholder entry token.start)
  | feeding token => some token
  | _ => none

/-- The task after a step. -/
def after (made : Step) : Task → Task
  | stepping _ => idle
  | driving token entry =>
    if made == .accepted then leaving token entry else driving token entry
  | mounting token entry => if made.consumed then opening token else mounting token entry
  | feeding token => if settles token made then idle else feeding token
  | task => task

end Task

/-- A parse and what it is at. -/
structure Point where
  task : Task
  parse : Parse

/-- One move of a run. -/
inductive Move (u : User) : Point → Point → Prop where
  | callStep {p : Parse} {token : Token} (hc : u.makes (.step token)) :
    Move u ⟨.idle, p⟩ ⟨.stepping token, p⟩
  | callAdvance {p : Parse} {token : Token} (hc : u.makes (.advance token))
    (hf : p.finished = false) : Move u ⟨.idle, p⟩ ⟨.opening token, p⟩
  | close {p : Parse} {token : Token} {entry : Suspension} {outer : List Suspension}
    (hs : p.suspended = entry :: outer) (he : endsNest entry token = true) :
    Move u ⟨.opening token, p⟩ ⟨.driving token entry, p⟩
  | feed {p : Parse} {token : Token}
    (h : ∀ entry ∈ p.suspended.head?, endsNest entry token = false) :
    Move u ⟨.opening token, p⟩ ⟨.feeding token, p⟩
  | made (task : Task) {p q : Parse} {token : Token} {made : Step}
    (hl : task.lookahead = some token) (h : Parse.step token p = .ok made q) :
    Move u ⟨task, p⟩ ⟨task.after made, q⟩
  | left {p q : Parse} {token : Token} {entry : Suspension} (h : leave entry p = .ok () q) :
    Move u ⟨.leaving token entry, p⟩ ⟨.mounting token entry, q⟩
  | failed (task : Task) {p q : Parse} {token : Token} {e : Error} (hu : u.persists)
    (hl : task.lookahead = some token) (h : Parse.step token p = .error (.error e) q) :
    Move u ⟨task, p⟩ ⟨.idle, q⟩

/-- A run from point to point. -/
abbrev Path (u : User) : Point → Point → Prop := Relation.ReflTransGen (Move u)

/-- The points of the runs of a user. -/
def Visited (t : Tables) (o : Options) (u : User) (x : Point) : Prop :=
  Path u ⟨.idle, Parse.new t o⟩ x

/-- A run from `x` comes to a halt, unless it is merely out of steps: at some point the next step,
or the way out of a nested grammar, fails. -/
def Halts (u : User) (x : Point) (h : Halt) (q : Parse) : Prop :=
  h = .exhausted ∨ ∃ y, Path u x y ∧
    ((∃ token, y.task.lookahead = some token ∧ step token y.parse = .error h q) ∨
      ∃ token entry, y.task = .leaving token entry ∧ leave entry y.parse = .error h q)

theorem Halts.of_path {u : User} {x y : Point} {h : Halt} {q : Parse} (hp : Path u x y)
    (hh : Halts u y h q) : Halts u x h q := by
  rcases hh with rfl | ⟨z, hz, hend⟩
  · exact .inl rfl
  · exact .inr ⟨z, hp.trans hz, hend⟩

/-! ## The computations follow the moves -/

/-- A computation that begins at `x` ends well, in the given sense, or the run from `x` halts as the
computation does. -/
def Follows {α : Type} (u : User) (x : Point) (ends : α → Parse → Prop) :
    EStateM.Result Halt Parse α → Prop
  | .ok a q => ends a q
  | .error h q => Halts u x h q

theorem Follows.of_path {α : Type} {u : User} {x y : Point} {ends : α → Parse → Prop}
    {r : EStateM.Result Halt Parse α} (hp : Path u x y) (h : Follows u y ends r) :
    Follows u x ends r := by
  cases r with
  | ok a q => exact h
  | error e q => exact Halts.of_path hp h

theorem run_stepUntil (wanted : Step → Bool) (token : Token) (fuel : Nat) (p : Parse) :
    stepUntil wanted token (fuel + 1) p = match step token p with
      | .ok made q => if wanted made then .ok made q else stepUntil wanted token fuel q
      | .error h q => .error h q := by
  simp only [stepUntil, run_bind]
  cases step token p with
  | error h q => rfl
  | ok made q =>
    dsimp only
    split <;> rfl

section Follow

variable {u : User} {token : Token}

/-- Steps that are not wanted keep the task; the first wanted one ends the loop. -/
theorem follows_stepUntil (wanted : Step → Bool) (task : Task) (hl : task.lookahead = some token)
    (hkeep : ∀ made, wanted made = false → task.after made = task) :
    ∀ fuel p, Follows u ⟨task, p⟩ (fun made q => wanted made = true ∧
        ∃ x, Path u ⟨task, p⟩ ⟨task, x⟩ ∧ step token x = .ok made q)
      (stepUntil wanted token fuel p) := by
  intro fuel
  induction fuel with
  | zero => exact fun p => .inl rfl
  | succ fuel ih =>
    intro p
    rw [run_stepUntil]
    cases hstep : step token p with
    | error h q => exact .inr ⟨_, .refl, .inl ⟨token, hl, hstep⟩⟩
    | ok made q =>
      dsimp only
      by_cases hw : wanted made = true
      · rw [if_pos hw]
        exact ⟨hw, p, .refl, hstep⟩
      · rw [if_neg hw]
        have hmove : Move u ⟨task, p⟩ ⟨task, q⟩ := by
          have h := Move.made (u := u) task hl hstep
          rwa [hkeep made (by simpa using hw)] at h
        have hrest := (ih q).of_path (.single hmove)
        cases hr : stepUntil wanted token fuel q with
        | error h q' => rwa [hr] at hrest
        | ok made' q' =>
          rw [hr] at hrest
          obtain ⟨hwanted, x, hpath, hx⟩ := hrest
          exact ⟨hwanted, x, .head hmove hpath, hx⟩

theorem follows_drive (token : Token) (fuel : Nat) (entry : Suspension) (p : Parse) :
    Follows u ⟨.driving token entry, p⟩
      (fun _ q => Path u ⟨.driving token entry, p⟩ ⟨.leaving token entry, q⟩)
      (stepUntil (· == .accepted) (Token.eof token.start) fuel p) := by
  have hdrive := follows_stepUntil (u := u) (· == .accepted) (.driving token entry) rfl
    (fun made hm => by simp [Task.after, hm]) fuel p
  cases hd : stepUntil (· == .accepted) (Token.eof token.start) fuel p with
  | error h q => rwa [hd] at hdrive
  | ok made q =>
    rw [hd] at hdrive
    obtain ⟨hacc, x, hpath, hx⟩ := hdrive
    have hm := Move.made (u := u) (.driving token entry) rfl hx
    simp only [Task.after, hacc, if_true] at hm
    exact hpath.tail hm

theorem follows_closeNest (token : Token) (fuel : Nat) (entry : Suspension) (p : Parse) :
    Follows u ⟨.driving token entry, p⟩
      (fun _ q => Path u ⟨.driving token entry, p⟩ ⟨.opening token, q⟩)
      (closeNest fuel entry token.start p) := by
  have hdrive := follows_drive (u := u) token fuel entry p
  simp only [closeNest, run_bind]
  cases hd : stepUntil (· == .accepted) (Token.eof token.start) fuel p with
  | error h q => rwa [hd] at hdrive
  | ok made p₁ =>
    rw [hd] at hdrive
    have hleaving : Path u ⟨.driving token entry, p⟩ ⟨.leaving token entry, p₁⟩ := hdrive
    dsimp only
    cases hleave : leave entry p₁ with
    | error h q =>
      exact Halts.of_path hleaving (.inr ⟨_, .refl, .inr ⟨token, entry, rfl, hleave⟩⟩)
    | ok _ p₂ =>
      have hmounting := hleaving.tail (.left hleave)
      have hshift := follows_stepUntil (u := u) Step.consumed (.mounting token entry) rfl
        (fun made hm => by simp [Task.after, hm]) fuel p₂
      dsimp only
      cases hs : stepUntil Step.consumed (placeholder entry token.start) fuel p₂ with
      | error h q =>
        rw [hs] at hshift
        exact Halts.of_path hmounting hshift
      | ok made p₃ =>
        rw [hs] at hshift
        obtain ⟨hcons, y, hpath', hy⟩ := hshift
        have hm := Move.made (u := u) (.mounting token entry) rfl hy
        simp only [Task.after, hcons, if_true] at hm
        exact (hmounting.trans hpath').tail hm

theorem follows_closeNests (token : Token) (steps : Nat) :
    ∀ fuel p, Follows u ⟨.opening token, p⟩
      (fun _ q => Path u ⟨.opening token, p⟩ ⟨.feeding token, q⟩ ∧
        ∀ entry ∈ q.suspended.head?, endsNest entry token = false)
      (closeNests steps token fuel p) := by
  intro fuel
  induction fuel with
  | zero => exact fun p => .inl rfl
  | succ fuel ih =>
    intro p
    simp only [closeNests, run_bind, run_get]
    cases hs : p.suspended with
    | nil =>
      have hstay : ∀ entry ∈ p.suspended.head?, endsNest entry token = false := by simp [hs]
      exact ⟨.single (.feed hstay), hstay⟩
    | cons entry outer =>
      dsimp only
      by_cases he : endsNest entry token = true
      · simp only [if_pos he, run_bind]
        have hclose : Move u ⟨.opening token, p⟩ ⟨.driving token entry, p⟩ := .close hs he
        have hnest := (follows_closeNest (u := u) token steps entry p).of_path
          (.single hclose)
        cases hc : closeNest steps entry token.start p with
        | error h q => rwa [hc] at hnest
        | ok _ p₁ =>
          rw [hc] at hnest
          have hpath : Path u ⟨.opening token, p⟩ ⟨.opening token, p₁⟩ := .head hclose hnest
          -- the token is looked at again in the grammar around the one that it ended
          have hrest := (ih p₁).of_path hpath
          dsimp only
          cases hr : closeNests steps token fuel p₁ with
          | error h q => rwa [hr] at hrest
          | ok _ q =>
            rw [hr] at hrest
            exact ⟨hpath.trans hrest.1, hrest.2⟩
      · simp only [if_neg he]
        have hstay : ∀ entry ∈ p.suspended.head?, endsNest entry token = false := by
          simpa [hs] using he
        exact ⟨.single (.feed hstay), hstay⟩

/-- Feeding a token runs from point to point: the nests that it ends are closed first, and the last
step is made with the token itself. -/
theorem follows_advance (hc : u.makes (.advance token)) (fuel : Nat) (p : Parse)
    (hf : p.finished = false) :
    Follows u ⟨.idle, p⟩
      (fun made q => settles token made = true ∧
        ∃ x, Path u ⟨.idle, p⟩ ⟨.feeding token, x⟩ ∧ step token x = .ok made q)
      (advance fuel token p) := by
  have hopen : Move u ⟨.idle, p⟩ ⟨.opening token, p⟩ := .callAdvance hc hf
  have hclose := (follows_closeNests (u := u) token fuel fuel p).of_path (.single hopen)
  simp only [advance, run_bind, run_get, hf, Bool.false_eq_true, if_false]
  cases hcl : closeNests fuel token fuel p with
  | error h q => rwa [hcl] at hclose
  | ok _ p₁ =>
    rw [hcl] at hclose
    have hfeeding : Path u ⟨.idle, p⟩ ⟨.feeding token, p₁⟩ := .head hopen hclose.1
    have hfeed := (follows_stepUntil (u := u) (settles token) (.feeding token) rfl
      (fun made hm => by simp [Task.after, hm]) fuel p₁).of_path hfeeding
    dsimp only
    cases hr : stepUntil (settles token) token fuel p₁ with
    | error h q => rwa [hr] at hfeed
    | ok made q =>
      rw [hr] at hfeed
      obtain ⟨hsettles, x, hpath, hx⟩ := hfeed
      exact ⟨hsettles, x, hfeeding.trans hpath, hx⟩

theorem run_advance_finished (fuel : Nat) {p : Parse} (hf : p.finished = true) :
    advance fuel token p = .error (.error .parseFinished) p := by
  simp only [advance, run_bind, run_get, hf, if_true, run_fail]

end Follow

/-! ## Calls are runs -/

section Calls

variable {t : Tables} {o : Options} {u : User} {c : Call} {p q : Parse} {fuel : Nat}

theorem leave_ne_error (entry : Suspension) (p q : Parse) (e : Error) :
    leave entry p ≠ .error (.error e) q := by
  rw [run_leave]
  split
  · simp
  · split <;> simp

theorem Halts.step_error {x : Point} {e : Error} (h : Halts u x (.error e) q) :
    ∃ y token, Path u x y ∧ y.task.lookahead = some token ∧
      step token y.parse = .error (.error e) q := by
  rcases h with h | ⟨y, hpath, ⟨token, hl, hstep⟩ | ⟨token, entry, -, hleave⟩⟩
  · cases h
  · exact ⟨y, token, hpath, hl, hstep⟩
  · exact absurd hleave (leave_ne_error entry _ _ _)

theorem path_of_call_ok {made : Step} (hc : u.makes c) (h : c.run fuel p = .ok made q) :
    Path u ⟨.idle, p⟩ ⟨.idle, q⟩ := by
  cases c with
  | step token => exact .tail (.single (.callStep hc)) (.made (.stepping token) rfl h)
  | advance token =>
    have hadv : advance fuel token p = .ok made q := h
    cases hf : p.finished with
    | true =>
      rw [run_advance_finished fuel hf] at hadv
      cases hadv
    | false =>
      have hfollows := follows_advance hc fuel p hf
      rw [hadv] at hfollows
      obtain ⟨hsettles, x, hpath, hx⟩ := hfollows
      have hm := Move.made (u := u) (.feeding token) rfl hx
      simp only [Task.after, hsettles, if_true] at hm
      exact hpath.tail hm

theorem Visited.advance_ok (hp : Visited t o u ⟨.idle, p⟩) {token : Token}
    (hc : u.makes (.advance token)) {made : Step} (h : Parse.advance fuel token p = .ok made q) :
    Visited t o u ⟨.idle, q⟩ :=
  Relation.ReflTransGen.trans hp (path_of_call_ok (c := .advance token) hc h)

/-- A call fails at once on a finished parse, or in a step at one of its points. -/
theorem step_error_of_call (hc : u.makes c) {e : Error} (h : c.run fuel p = .error (.error e) q) :
    (p.finished = true ∧ e = .parseFinished ∧ q = p) ∨
      ∃ y token, Path u ⟨.idle, p⟩ y ∧ y.task.lookahead = some token ∧
        step token y.parse = .error (.error e) q := by
  cases c with
  | step token => exact .inr ⟨⟨.stepping token, p⟩, token, .single (.callStep hc), rfl, h⟩
  | advance token =>
    have hadv : advance fuel token p = .error (.error e) q := h
    cases hf : p.finished with
    | true =>
      rw [run_advance_finished fuel hf] at hadv
      cases hadv
      exact .inl ⟨rfl, rfl, rfl⟩
    | false =>
      have hfollows := follows_advance hc fuel p hf
      rw [hadv] at hfollows
      exact .inr (Halts.step_error hfollows)

/-- The parses between the calls are points of the run. -/
theorem Reachable.visited (h : Reachable t o u p) : Visited t o u ⟨.idle, p⟩ := by
  induction h with
  | new => exact .refl
  | ok _ _ _ hc h ih => exact Relation.ReflTransGen.trans ih (path_of_call_ok hc h)
  | error _ _ _ hc hu h ih =>
    rcases step_error_of_call hc h with ⟨-, -, rfl⟩ | ⟨y, token, hpath, hl, hstep⟩
    · exact ih
    · exact Relation.ReflTransGen.tail (Relation.ReflTransGen.trans ih hpath)
        (.failed _ hu hl hstep)

end Calls

/-! ## Given calls -/

/-- The parse that a computation leaves, whatever it comes to. -/
def final {α : Type} : EStateM.Result Halt Parse α → Parse
  | .ok _ q => q
  | .error _ q => q

/-- The call came back, with a step or with an error. -/
def Result.returns : Result → Bool
  | .ok _ _ => true
  | .error (.error _) _ => true
  | .error _ _ => false

/-- The parse behind given calls, each with at most `fuel` steps. -/
def runCalls (fuel : Nat) : List Call → Parse → Parse
  | [], p => p
  | c :: rest, p => runCalls fuel rest (Result.parse (c.run fuel p))

/-- All of the given calls come back. -/
def allReturn (fuel : Nat) : List Call → Parse → Bool
  | [], _ => true
  | c :: rest, p =>
    Result.returns (c.run fuel p) && allReturn fuel rest (Result.parse (c.run fuel p))

theorem Reachable.runCalls {t : Tables} {o : Options} {u : User} (hu : u.persists) {fuel : Nat} :
    ∀ {calls : List Call} {p : Parse}, Reachable t o u p → (∀ c ∈ calls, u.makes c) →
      allReturn fuel calls p = true → Reachable t o u (runCalls fuel calls p) := by
  intro calls
  induction calls with
  | nil => exact fun h _ _ => h
  | cons c rest ih =>
    intro p h hmakes hreturns
    simp only [allReturn, Bool.and_eq_true] at hreturns
    obtain ⟨hfirst, hrest⟩ := hreturns
    have hc : u.makes c := hmakes c List.mem_cons_self
    have hnext : Reachable t o u (Result.parse (c.run fuel p)) := by
      cases hrun : c.run fuel p with
      | ok made q => exact h.ok c fuel hc hrun
      | error halt q =>
        cases halt with
        | error e => exact h.error c fuel hc hu hrun
        | overflow | exhausted => simp [hrun, Result.returns] at hfirst
    exact ih hnext (fun c' hc' => hmakes c' (List.mem_cons_of_mem _ hc')) hrest

/-! ## What every point keeps -/

theorem Visited.sound {t : Tables} {o : Options} {u : User} (hv : t.Valid) {x : Point}
    (h : Visited t o u x) : Sound t x.parse := by
  induction h with
  | refl => exact sound_new hv o
  | tail _ hm ih =>
    cases hm with
    | callStep => exact ih
    | callAdvance => exact ih
    | close => exact ih
    | feed => exact ih
    | made _ _ hstep => exact (ih.step hv hstep).2
    | left hleave => exact sound_leave ih hleave
    | failed _ _ _ hstep => exact (ih.step hv hstep).2

end Parse

end LRMachine
