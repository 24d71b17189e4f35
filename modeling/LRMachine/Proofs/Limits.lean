import LRMachine.Parse.Advance
import LRMachine.Proofs.Outcome

/-!
# Looser limits

The number of recoveries and the height of the stacks are limited, and a parse that comes to a limit
fails. Apart from that no limit has a say: `Parse.under` puts a parse under other options, with
their limit on the stack of every grammar, and where a computation succeeds on a parse, it succeeds
in the same way on the parse under options that allow at least as much. `Replays` states this for
one computation, with a lemma for each of the functions that a parse is made of. Hence a parse that
accepts under some limits accepts under all looser ones, with the same events
(`exists_parse_of_looser`).
-/

namespace LRMachine

/-! ## Other limits -/

/-- The stack with another limit. -/
def Stack.withLimit (s : Stack) (limit : Nat) : Stack := { s with limit }

/-- The grammar with another limit on its stack. -/
def Level.withLimit (l : Level) (limit : Nat) : Level := { l with stack := l.stack.withLimit limit }

/-- The suspended grammar with another limit on its stack. -/
def Suspension.withLimit (s : Suspension) (limit : Nat) : Suspension :=
  { s with host := s.host.withLimit limit }

namespace Parse

/-- The parse under other options, whose limit goes for the stack of every grammar. -/
def under (p : Parse) (o : Options) : Parse :=
  { p with
    active := p.active.withLimit o.maxStackDepth
    suspended := p.suspended.map (·.withLimit o.maxStackDepth)
    options := o }

/-- No limit of the parse is above that of the options. -/
structure Allowed (p : Parse) (o : Options) : Prop where
  recoveries : p.options.maxRecoveries ≤ o.maxRecoveries
  depth : p.options.maxStackDepth ≤ o.maxStackDepth
  active : p.active.stack.limit ≤ o.maxStackDepth
  suspended : ∀ s ∈ p.suspended, s.host.stack.limit ≤ o.maxStackDepth

variable {o : Options} {p q : Parse}

/-- A change that leaves the limits alone. -/
theorem Allowed.of_eq (h : p.Allowed o) (hoptions : q.options = p.options)
    (hlimit : q.active.stack.limit = p.active.stack.limit)
    (hsuspended : q.suspended = p.suspended) : q.Allowed o where
  recoveries := hoptions ▸ h.recoveries
  depth := hoptions ▸ h.depth
  active := hlimit ▸ h.active
  suspended := hsuspended ▸ h.suspended

theorem Allowed.entered (h : p.Allowed o) (grammar : Nested Tables) (start : Nat) :
    (p.entered grammar start).Allowed o where
  recoveries := h.recoveries
  depth := h.depth
  active := h.depth
  suspended := List.forall_mem_cons.mpr ⟨h.active, h.suspended⟩

theorem Allowed.left {entry innermost : Suspension} {outer : List Suspension} (h : p.Allowed o)
    (hsuspended : p.suspended = innermost :: outer) :
    (p.left entry innermost.host outer).Allowed o := by
  obtain ⟨hactive, houter⟩ := List.forall_mem_cons.mp (hsuspended ▸ h.suspended)
  exact ⟨h.recoveries, h.depth, hactive, houter⟩

theorem allowed_new (tables : Tables) {o o' : Options}
    (hrecoveries : o.maxRecoveries ≤ o'.maxRecoveries)
    (hdepth : o.maxStackDepth ≤ o'.maxStackDepth) : (new tables o).Allowed o' :=
  ⟨hrecoveries, hdepth, hdepth, by simp [new]⟩

theorem tables_under (p : Parse) (o : Options) : (p.under o).tables = p.tables := rfl

theorem emptyFrame_under (p : Parse) (o : Options) (skipped : Bool) :
    (p.under o).emptyFrame skipped = p.emptyFrame skipped := by
  have hfloor : (p.under o).floor = p.floor := by
    unfold floor
    cases hsuspended : p.suspended <;> simp [under, hsuspended, Suspension.withLimit]
  unfold emptyFrame
  rw [hfloor]
  rfl

/-! ## Computations that are replayed -/

/-- Where `x` succeeds on the parse, `y` succeeds on the parse under `o` and leaves the same, and
the limits stay allowed. -/
def Replays {α : Type} (o : Options) (p : Parse) (x y : ParseM α) : Prop :=
  ∀ a q, x p = .ok a q → q.Allowed o ∧ y (p.under o) = .ok a (q.under o)

namespace Replays

variable {α β : Type}

theorem pure (h : p.Allowed o) (a : α) : Replays o p (pure a) (pure a) := by
  rintro _ _ ⟨⟩
  exact ⟨h, rfl⟩

theorem throw (halt : Halt) (y : ParseM α) : Replays o p (throw halt) y := by
  rintro _ _ ⟨⟩

theorem set (h : q.Allowed o) : Replays o p (set q) (set (q.under o)) := by
  rintro _ _ ⟨⟩
  exact ⟨h, rfl⟩

theorem lookUp (h : p.Allowed o) (answer : Except Error α) :
    Replays o p (lookUp answer) (lookUp answer) := by
  cases answer with
  | error e => exact throw _ _
  | ok a => exact pure h a

theorem bind {x y : ParseM α} {f g : α → ParseM β} (hx : Replays o p x y)
    (hf : ∀ a q, q.Allowed o → Replays o q (f a) (g a)) : Replays o p (x >>= f) (y >>= g) := by
  intro b r hrun
  rw [run_bind] at hrun ⊢
  cases hfirst : x p with
  | error e q => simp [hfirst] at hrun
  | ok a q =>
    obtain ⟨hq, hsecond⟩ := hx a q hfirst
    simp only [hfirst] at hrun
    simp only [hsecond]
    exact hf a q hq b r hrun

theorem get_bind {f g : Parse → ParseM β} (h : Replays o p (f p) (g (p.under o))) :
    Replays o p (get >>= f) (get >>= g) := h

theorem modify {f : Parse → Parse} (h : (f p).Allowed o) (hunder : (f p).under o = f (p.under o)) :
    Replays o p (modify f) (modify f) := by
  rintro _ _ ⟨⟩
  exact ⟨h, congrArg (EStateM.Result.ok ()) hunder.symm⟩

end Replays

/-! ## Moves of the stack -/

theorem replays_pushFrame (h : p.Allowed o) (f : Frame) :
    Replays o p (pushFrame f) (pushFrame f) := by
  rintro ⟨⟩ q hrun
  rw [run_pushFrame] at hrun ⊢
  split at hrun
  · cases hrun
  · rename_i hroom
    cases hrun
    -- A looser limit leaves room wherever the limit does.
    have hlimit := h.active
    have hroom' : ¬ (p.under o).active.stack.limit ≤ (p.under o).active.stack.length := by
      show ¬ o.maxStackDepth ≤ p.active.stack.length
      omega
    rw [if_neg hroom']
    exact ⟨h.of_eq rfl rfl rfl, rfl⟩

theorem replays_popFrames (h : p.Allowed o) (r : Reduction) (skipped : Bool) :
    Replays o p (popFrames r skipped) (popFrames r skipped) := by
  refine .get_bind ?_
  dsimp only
  split
  · rw [emptyFrame_under]
    show Replays o p _ (if (!skipped && decide (p.items < p.skippedTail)) = true then _ else _)
    split
    · exact .throw _ _
    · exact .pure h _
  · cases hpop : p.active.stack.pop r.depth.toNat with
    | error e => exact .throw _ _
    | ok popped =>
      obtain ⟨lowest, stack⟩ := popped
      obtain ⟨hpos, hle, hframe, rfl⟩ := (Stack.pop_eq_ok_iff _ _ _ _).mp hpop
      have hpop' : (p.under o).active.stack.pop r.depth.toNat =
          .ok (lowest, ((p.under o).active.stack.lower r.depth.toNat)) :=
        (Stack.pop_eq_ok_iff _ _ _ _).mpr ⟨hpos, hle, hframe, rfl⟩
      rw [hpop']
      show Replays o p
        (do set (p.withStack (p.active.stack.lower r.depth.toNat)); Pure.pure lowest)
        (do set ((p.withStack (p.active.stack.lower r.depth.toNat)).under o); Pure.pure lowest)
      exact .bind (.set (h.of_eq rfl rfl rfl)) fun _ q hq => .pure hq _

theorem replays_enterNest (h : p.Allowed o) (state : StateId) (start : Nat) :
    Replays o p (enterNest state start) (enterNest state start) := by
  refine .get_bind (.bind (.lookUp h _) fun d q hq => ?_)
  split
  · exact .pure hq _
  · rw [tables_under]
    split
    · exact .throw _ _
    · exact .set (h.entered _ start)

/-! ## Actions -/

theorem replays_consume (h : p.Allowed o) (term : Term) (token : Token) (skipped : Bool) :
    Replays o p (consume term token skipped) (consume term token skipped) := by
  unfold consume
  split
  · exact .throw _ _
  · exact .modify (h.of_eq rfl rfl rfl) rfl

theorem replays_shift (h : p.Allowed o) (target : StateId) (term : Term) (token : Token) :
    Replays o p (shift target term token) (shift target term token) := by
  refine .get_bind (.bind (.lookUp h _) fun d q hq => ?_)
  refine .bind (replays_consume hq term token _) fun _ q hq => ?_
  refine .bind (replays_pushFrame hq _) fun _ q hq => .get_bind ?_
  exact .bind (replays_enterNest hq target _) fun _ q hq => .pure hq _

theorem replays_skip (h : p.Allowed o) (term : Term) (token : Token) :
    Replays o p (skip term token) (skip term token) :=
  .bind (replays_consume h term token true) fun _ _ hq => .pure hq _

theorem replays_pushState (h : p.Allowed o) (target : StateId) (token : Token) :
    Replays o p (pushState target token) (pushState target token) := by
  refine .get_bind (.bind (replays_pushFrame h _) fun _ q hq => ?_)
  exact .bind (replays_enterNest hq target token.start) fun _ q hq => .pure hq _

theorem replays_gotoTarget (h : p.Allowed o) (r : Reduction) :
    Replays o p (gotoTarget r) (gotoTarget r) := by
  unfold gotoTarget
  split
  · exact .pure h _
  · refine .get_bind (.bind (.lookUp h _) fun found q hq => ?_)
    cases found with
    | none => exact .throw _ _
    | some target => exact .pure hq _

theorem replays_reduce (h : p.Allowed o) (r : Reduction) (token : Token) :
    Replays o p (reduce r token) (reduce r token) := by
  refine .get_bind (.bind (.lookUp h _) fun d q hq => ?_)
  refine .bind (replays_popFrames hq r _) fun lowest q hq => ?_
  refine .bind (replays_gotoTarget hq r) fun next q hq => .get_bind ?_
  refine .bind (.modify (hq.of_eq rfl rfl rfl) rfl) fun _ q hq => ?_
  cases next with
  | none => exact .pure hq _
  | some target =>
    refine .bind (replays_pushFrame hq _) fun _ q hq => ?_
    exact .bind (replays_enterNest hq target token.start) fun _ q hq => .pure hq _

theorem replays_apply (h : p.Allowed o) (term : Term) (action : Action) (token : Token) :
    Replays o p (apply term action token) (apply term action token) := by
  cases action with
  | shift target => exact replays_shift h target term token
  | push target => exact replays_pushState h target token
  | skip state => exact replays_skip h term token
  | reduce r => exact replays_reduce h r token

/-! ## One step -/

theorem replays_recover (h : p.Allowed o) (token : Token) :
    Replays o p (recover token) (recover token) := by
  refine .get_bind (.bind (.lookUp h _) fun mismatch q hq => ?_)
  split
  · exact .throw _ _
  · rename_i hleft
    have hrecoveries := h.recoveries
    have hleft' : ¬ (p.under o).options.maxRecoveries ≤ (p.under o).recoveries := by
      show ¬ o.maxRecoveries ≤ p.recoveries
      omega
    rw [if_neg hleft']
    refine .bind (.lookUp hq _) fun found q hq => ?_
    cases found with
    | none => exact .throw _ _
    | some action =>
      exact .bind (.set (h.of_eq rfl rfl rfl)) fun _ q hq => replays_apply hq Term.err action token

theorem replays_accepts (h : p.Allowed o) (token : Token) :
    Replays o p (accepts token) (accepts token) := by
  unfold accepts
  split
  · exact .get_bind (.bind (.lookUp h _) fun d q hq => .pure hq _)
  · exact .pure h _

theorem replays_accept (h : p.Allowed o) : Replays o p accept accept := by
  refine .bind (.modify ?_ ?_) fun _ q hq => .pure hq _
  · split
    · exact h.of_eq rfl rfl rfl
    · exact h
  · have hempty : (p.under o).suspended.isEmpty = p.suspended.isEmpty := List.isEmpty_map
    rw [hempty]
    split <;> rfl

theorem replays_step (h : p.Allowed o) (token : Token) :
    Replays o p (step token) (step token) := by
  refine .get_bind ?_
  show Replays o p (if p.finished then _ else _) (if p.finished then _ else _)
  split
  · exact .throw _ _
  · refine .bind (replays_accepts h token) fun accepted q hq => ?_
    split
    · exact replays_accept hq
    · refine .bind (.lookUp hq _) fun found q hq => ?_
      split
      · exact replays_apply hq _ _ token
      · exact replays_recover hq token

/-! ## Runs -/

theorem replays_stepUntil (wanted : Step → Bool) (token : Token) :
    ∀ fuel {p : Parse}, p.Allowed o →
      Replays o p (stepUntil wanted token fuel) (stepUntil wanted token fuel) := by
  intro fuel
  induction fuel with
  | zero => exact fun _ => .throw _ _
  | succ fuel ih =>
    intro p h
    refine .bind (replays_step h token) fun made q hq => ?_
    split
    · exact .pure hq _
    · exact ih hq

theorem replays_leave (h : p.Allowed o) (entry : Suspension) :
    Replays o p (leave entry) (leave (entry.withLimit o.maxStackDepth)) := by
  refine .get_bind ?_
  cases hsuspended : p.suspended with
  | nil =>
    have hsuspended' : (p.under o).suspended = [] := by simp [under, hsuspended]
    rw [hsuspended']
    exact .pure h _
  | cons innermost outer =>
    have hsuspended' : (p.under o).suspended =
        innermost.withLimit o.maxStackDepth :: outer.map (·.withLimit o.maxStackDepth) := by
      simp [under, hsuspended]
    rw [hsuspended']
    show Replays o p (if p.items < entry.base then _ else _) (if p.items < entry.base then _ else _)
    split
    · exact .throw _ _
    · exact .set (h.left hsuspended)

theorem replays_closeNest (h : p.Allowed o) (fuel : Nat) (entry : Suspension) (position : Nat) :
    Replays o p (closeNest fuel entry position)
      (closeNest fuel (entry.withLimit o.maxStackDepth) position) := by
  refine .bind (replays_stepUntil _ _ fuel h) fun _ q hq => ?_
  refine .bind (replays_leave hq entry) fun _ q hq => ?_
  exact .bind (replays_stepUntil _ (placeholder entry position) fuel hq) fun _ q hq => .pure hq _

theorem replays_closeNests (steps : Nat) (token : Token) :
    ∀ fuel {p : Parse}, p.Allowed o →
      Replays o p (closeNests steps token fuel) (closeNests steps token fuel) := by
  intro fuel
  induction fuel with
  | zero => exact fun _ => .throw _ _
  | succ fuel ih =>
    intro p h
    refine .get_bind ?_
    cases hsuspended : p.suspended with
    | nil =>
      have hsuspended' : (p.under o).suspended = [] := by simp [under, hsuspended]
      rw [hsuspended']
      exact .pure h _
    | cons entry outer =>
      have hsuspended' : (p.under o).suspended =
          entry.withLimit o.maxStackDepth :: outer.map (·.withLimit o.maxStackDepth) := by
        simp [under, hsuspended]
      rw [hsuspended']
      show Replays o p (if endsNest entry token then _ else _)
        (if endsNest entry token then _ else _)
      split
      · exact .bind (replays_closeNest h steps entry token.start) fun _ q hq => ih hq
      · exact .pure h _

theorem replays_advance (h : p.Allowed o) (fuel : Nat) (token : Token) :
    Replays o p (advance fuel token) (advance fuel token) := by
  refine .get_bind ?_
  show Replays o p (if p.finished then _ else _) (if p.finished then _ else _)
  split
  · exact .throw _ _
  · exact .bind (replays_closeNests fuel token fuel h) fun _ q hq =>
      replays_stepUntil _ token fuel hq

theorem replays_feed (fuel : Nat) :
    ∀ tokens stop {p : Parse}, p.Allowed o →
      Replays o p (feed fuel tokens stop) (feed fuel tokens stop) := by
  intro tokens
  induction tokens with
  | nil =>
    exact fun stop p h => .bind (replays_advance h fuel _) fun _ q hq => .pure hq _
  | cons token rest ih =>
    intro stop p h
    unfold feed
    split
    · exact .throw _ _
    · refine .bind (replays_advance h fuel token) fun made q hq => ?_
      split
      · exact .pure hq _
      · exact ih _ hq

/-- A parse that accepts under some limits accepts with the same events under looser ones, in as
many rounds. -/
theorem exists_parse_of_looser {o o' : Options} (hrecoveries : o.maxRecoveries ≤ o'.maxRecoveries)
    (hdepth : o.maxStackDepth ≤ o'.maxStackDepth) {fuel : Nat} {t : Tables} {tokens : List Token}
    {q : Parse} (h : parse fuel t tokens o = .ok () q) :
    ∃ q', parse fuel t tokens o' = .ok () q' ∧ q'.events = q.events := by
  have hallowed := allowed_new t hrecoveries hdepth
  obtain ⟨-, hrun⟩ := replays_feed fuel tokens 0 hallowed () q h
  exact ⟨q.under o', hrun, rfl⟩

/-- An opening 3 and behind it a nested grammar that reads any word by recovery; its placeholder 7
comes last. -/
def tolerant : Tables :=
  let unread : Tables :=
    { start := 0, states := #[2, 0, 0], actions := #[1, 0, 4, 0xffff], gotos := #[0xffff]
      specializations := #[], nested := [], names := [] }
  { start := 0, states := #[0, 0, 0, 4, 4, 0, 2, 8, 0]
    actions := #[3, 1, 0, 0xffff, 7, 2, 0, 0xffff, 0xffff], gotos := #[0xffff]
    specializations := #[], nested := [⟨"unread", unread, 5, 7⟩], names := [] }

theorem tolerant_valid : tolerant.Valid := by
  refine .intro rfl fun g hg => ?_
  obtain rfl := List.mem_singleton.mp hg
  exact .intro rfl (by simp)

/-- The limits of one recovery and three frames are enough, and looser ones change nothing. -/
theorem exists_parse_of_looser_tolerant :
    ∃ q q', parse 2 tolerant [⟨3, 0, 1⟩, ⟨9, 1, 1⟩] ⟨1, 3⟩ = .ok () q ∧ q.recoveries = 1 ∧
      q.active.stack.length = 3 ∧ parse 2 tolerant [⟨3, 0, 1⟩, ⟨9, 1, 1⟩] ⟨2, 4⟩ = .ok () q' ∧
      q'.events = q.events := by
  have hends : (match parse 2 tolerant [⟨3, 0, 1⟩, ⟨9, 1, 1⟩] ⟨1, 3⟩ with
      | .ok _ q => q.recoveries == 1 && q.active.stack.length == 3
      | .error _ _ => false) = true := by decide +kernel
  split at hends
  · rename_i q hrun
    rw [Bool.and_eq_true, beq_iff_eq, beq_iff_eq] at hends
    have hmore : (⟨1, 3⟩ : Options).maxRecoveries ≤ (⟨2, 4⟩ : Options).maxRecoveries := by decide
    have hdeeper : (⟨1, 3⟩ : Options).maxStackDepth ≤ (⟨2, 4⟩ : Options).maxStackDepth := by
      decide
    obtain ⟨q', hloose, hevents⟩ := exists_parse_of_looser hmore hdeeper hrun
    exact ⟨q, q', hrun, hends.1, hends.2, hloose, hevents⟩
  · cases hends

end Parse

end LRMachine
