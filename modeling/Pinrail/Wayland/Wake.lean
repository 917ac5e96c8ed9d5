import Pinrail.Wayland.FrameLoop

/-!
# No wake is lost

Between two events the frame loop rests, and whoever it names as the owner of the next wake does own
one. The request-frame callback is registered, and the application draws inside ticks only, or before
the window is configured.
-/

namespace Pinrail.Wayland

namespace Window

/-! ## What the frame loop owes -/

/-- The frame loop rests. Nothing is said of the ping: a dispatch of it may be under way that has
not visited this window. -/
structure Held (window : Window) : Prop where
  ticking : window.frameLoop ≠ .ticking
  rescheduleRequested : window.frameLoop ≠ .rescheduleRequested
  presentationFailed : window.frameLoop ≠ .presentationFailed
  parked : window.frameLoop = .parked →
    window.redrawRequested = false ∧ window.presentation.requiresPresentation = false
  retryScheduled : window.frameLoop = .retryScheduled → 0 < window.retryTimers
  awaitingCallback : window.frameLoop = .awaitingCallback → window.pendingFrameCallback = some .committed

structure Settled (window : Window) : Prop extends Held window where
  scheduled : window.frameLoop = .scheduled → window.pingPending = true

structure InTick (window : Window) : Prop where
  states : window.frameLoop = .ticking ∨ window.frameLoop = .rescheduleRequested ∨
    window.frameLoop = .presentationFailed ∨ window.frameLoop = .awaitingCallback ∨
    window.frameLoop = .closed
  failed : window.frameLoop = .presentationFailed → window.presentation.requiresPresentation = true
  awaitingCallback : window.frameLoop = .awaitingCallback → window.pendingFrameCallback = some .committed

def Registered (self : Window) : Prop :=
  self.isClosed = false → self.callbacks .requestFrame = true

theorem settled_of_closed {self : Window} (closed : self.isClosed = true) : Settled self := by
  have loop := isClosed_eq_true.mp closed
  constructor
  · constructor <;> simp [loop]
  · simp [loop]

theorem registered_of_closed {self : Window} (closed : self.isClosed = true) : Registered self := by
  simp [Registered, closed]

/-! ## What happens between two ticks

Handlers make calls and change parts of the window that the frame loop does not see. -/

structure SameLoop (window next : Window) : Prop where
  frameLoop : next.frameLoop = window.frameLoop
  redrawRequested : next.redrawRequested = window.redrawRequested
  presentation : next.presentation = window.presentation
  pendingFrameCallback : next.pendingFrameCallback = window.pendingFrameCallback
  pingPending : next.pingPending = window.pingPending
  retryTimers : next.retryTimers = window.retryTimers
  requestFrame : window.callbacks .requestFrame = true → next.callbacks .requestFrame = true

inductive Moves (allowed : List Call) : Window → Window → Prop where
  | refl (self : Window) : Moves allowed self self
  | call {self next : Window} (moves : Moves allowed self next) (call : Call)
      (member : call ∈ allowed) : Moves allowed self (next.call call)
  | silent {self next other : Window} (moves : Moves allowed self next)
      (same : SameLoop next other) : Moves allowed self other

theorem Moves.calls {allowed : List Call} {self next : Window} (moves : Moves allowed self next)
    {calls : List Call} (subset : calls ⊆ allowed) : Moves allowed self (next.calls calls) := by
  induction calls generalizing next with
  | nil => exact moves
  | cons call rest ih =>
    have ⟨member, restSubset⟩ := List.cons_subset.mp subset
    exact ih (moves.call call member) restSubset

theorem sameLoop_take {self : Window} {handler : Handler} (other : handler ≠ .requestFrame) :
    SameLoop self (self.take handler) := by
  constructor <;> simp [take, Function.update_of_ne other.symm]

theorem sameLoop_restore (self : Window) (handler : Handler) : SameLoop self (self.restore handler) := by
  constructor <;> try rfl
  intro registered
  by_cases same : handler = .requestFrame
  · simp [restore, register, emit, same]
  · simp [restore, register, emit, Function.update_of_ne (Ne.symm same), registered]

theorem sameLoop_emit (self : Window) (effect : Effect) : SameLoop self (self.emit effect) := by
  constructor <;> simp [emit]

theorem Moves.notify {allowed : List Call} {self next : Window} (moves : Moves allowed self next)
    {handler : Handler} (other : handler ≠ .requestFrame) {calls : List Call}
    (subset : calls ⊆ allowed) : Moves allowed self (next.notify handler calls) := by
  unfold Window.notify
  split
  · exact ((moves.silent (sameLoop_take other)).calls subset).silent (sameLoop_restore _ _)
  · exact moves

theorem Moves.setSizeAndScale {allowed : List Call} {self next : Window}
    (moves : Moves allowed self next) {changed : Option (List Call)}
    (subset : changed.getD [] ⊆ allowed) : Moves allowed self (next.setSizeAndScale changed) := by
  unfold Window.setSizeAndScale
  split
  · exact moves
  · split
    · exact moves
    · exact moves.notify (by decide) subset

theorem Moves.takeInputHandler {allowed : List Call} {self next : Window}
    (moves : Moves allowed self next) : Moves allowed self next.takeInputHandler :=
  moves.silent (by constructor <;> simp [Window.takeInputHandler])

theorem Moves.putBackInputHandler {allowed : List Call} {self next : Window}
    (moves : Moves allowed self next) : Moves allowed self next.putBackInputHandler := by
  unfold Window.putBackInputHandler
  split
  · exact moves
  · exact moves.silent (by constructor <;> simp [emit])

theorem Moves.withInputHandler {allowed : List Call} {self next : Window} (moves : Moves allowed self next)
    {calls : List Call} (subset : calls ⊆ allowed) : Moves allowed self (next.withInputHandler calls) := by
  unfold Window.withInputHandler
  split
  · exact (moves.takeInputHandler.calls subset).putBackInputHandler
  · exact moves

theorem Moves.getImeArea {allowed : List Call} {self next : Window} (moves : Moves allowed self next)
    {calls : List Call} (subset : calls ⊆ allowed) : Moves allowed self (next.getImeArea calls) := by
  unfold Window.getImeArea
  split
  · exact moves
  · exact moves.withInputHandler subset

theorem Moves.inputCallback {allowed : List Call} {self next : Window} (moves : Moves allowed self next)
    {calls : List Call} (subset : calls ⊆ allowed) : Moves allowed self (next.inputCallback calls) := by
  unfold Window.inputCallback
  split
  · have taken := moves.silent (sameLoop_take (by decide : Handler.input ≠ .requestFrame))
    exact ((taken.silent (sameLoop_emit _ _)).calls subset).silent (sameLoop_restore _ _)
  · exact moves

theorem Moves.insertText {allowed : List Call} {self next : Window} (moves : Moves allowed self next)
    {text : Option (List Call)} (subset : text.getD [] ⊆ allowed) : Moves allowed self (next.insertText text) := by
  unfold Window.insertText
  split
  · exact moves
  · split
    · exact (moves.silent (sameLoop_emit _ _)).withInputHandler subset
    · exact moves

theorem Moves.handleInput {allowed : List Call} {self next : Window} (moves : Moves allowed self next) {input : Input}
    (callback : input.callback ⊆ allowed) (text : input.text.getD [] ⊆ allowed) :
    Moves allowed self (next.handleInput input) := by
  have delivered := moves.inputCallback callback
  unfold Window.handleInput
  dsimp only
  split
  · exact moves
  · split
    · exact delivered
    · exact delivered.insertText text

theorem Moves.handleIme {allowed : List Call} {self next : Window} (moves : Moves allowed self next) {input : ImeInput}
    {calls : List Call} (query : ∀ query marked, input = .deleteText query marked → query ⊆ allowed)
    (subset : calls ⊆ allowed) : Moves allowed self (next.handleIme input calls) := by
  have delivered {other : Window} (moves : Moves allowed self other) :
      Moves allowed self ((other.emit .deliveredInput).calls calls) :=
    (moves.silent (sameLoop_emit _ _)).calls subset
  unfold Window.handleIme
  split
  · exact moves
  · split
    · apply Moves.putBackInputHandler
      cases input with
      | deleteText query' marked =>
        have asked := moves.takeInputHandler.calls (query query' marked rfl)
        dsimp only
        split
        · exact delivered asked
        · exact asked
      | _ => exact delivered moves.takeInputHandler
    · exact moves

theorem Moves.close {allowed : List Call} {self next : Window} (moves : Moves allowed self next)
    {children callback : List Call} (closes : Call.close ∈ allowed) (childrenSubset : children ⊆ allowed)
    (callbackSubset : callback ⊆ allowed) : Moves allowed self (next.close children callback) := by
  have closed := (moves.call .close closes).calls childrenSubset
  unfold Window.close
  dsimp only
  split
  · exact (closed.silent (sameLoop_take (by decide))).calls callbackSubset
  · exact closed

/-! ## Calls outside a tick keep what is owed -/

theorem callbacks_scheduleFrame (self : Window) : self.scheduleFrame.callbacks = self.callbacks := by
  unfold Window.scheduleFrame
  split <;> rfl

theorem draw_cases (self : Window) (outcome : DrawOutcome) : (self.draw outcome).callbacks = self.callbacks ∧
      (self.draw outcome).pingPending = self.pingPending ∧
      (((self.draw outcome).frameLoop = self.frameLoop ∧ (self.draw outcome).presentation = self.presentation ∧
          (self.draw outcome).pendingFrameCallback = self.pendingFrameCallback) ∨
        ((self.draw outcome).frameLoop = .awaitingCallback ∧
          (self.draw outcome).pendingFrameCallback = some .committed) ∨
        ((self.draw outcome).frameLoop = .presentationFailed ∧
          (self.draw outcome).presentation.requiresPresentation = true)) := by
  unfold Window.draw
  dsimp only
  split
  · simp [setRedrawRequested]
  · cases outcome with
    | deviceLost => simp [setRedrawRequested, emit]
    | rendered presented needsRedraw =>
      have failed := PresentationState.requiresPresentation_failed self.presentation
      cases pending : self.pendingFrameCallback <;> cases presented <;> cases needsRedraw <;>
        simp [requestCallback, setRedrawRequested, present, Window.commit, enter, emit, pending, failed]

theorem callbacks_call {self : Window} {handler : Handler} (call : Call)
    (registered : self.callbacks handler = true) : (self.call call).callbacks handler = true := by
  cases call with
  | requestRedraw =>
    simpa [Window.call, Window.requestRedraw, callbacks_scheduleFrame, setRedrawRequested] using registered
  | scheduleFrame => simpa [Window.call, callbacks_scheduleFrame] using registered
  | draw outcome => simpa [Window.call, (draw_cases self outcome).1] using registered
  | register other =>
    by_cases same : handler = other
    · simp [Window.call, register, same]
    · simpa [Window.call, register, Function.update_of_ne same] using registered
  | _ => exact registered

theorem registered_call {self : Window} (registered : Registered self) (call : Call) : Registered (self.call call) := by
  intro opened
  have before : self.isClosed = false := by
    by_contra closed
    rw [isClosed_call call (by simpa using closed)] at opened
    exact absurd opened (by decide)
  exact callbacks_call call (registered before)

theorem isConfigured_call {self : Window} (call : Call)
    (unconfigured : self.isConfigured = false) : (self.call call).isConfigured = false := by
  have states := isConfigured_eq_false.mp unconfigured
  cases call with
  | draw outcome =>
    rcases states with loop | loop <;>
      simp [Window.isConfigured, Window.call, Window.draw, admitDraw, setRedrawRequested, loop]
  | requestRedraw =>
    rcases states with loop | loop <;>
      simp [Window.isConfigured, Window.call, Window.requestRedraw, Window.scheduleFrame, setRedrawRequested, loop]
  | scheduleFrame =>
    rcases states with loop | loop <;>
      simp [Window.isConfigured, Window.call, Window.scheduleFrame, loop]
  | close => simp [Window.isConfigured, Window.call, enter, emit]
  | _ => exact unconfigured

theorem held_call {self : Window} {call : Call} (held : Held self)
    (outside : self.isConfigured = true → ∀ outcome, call ≠ .draw outcome) : Held (self.call call) := by
  cases call with
  | draw outcome =>
    have states : self.frameLoop = .unconfigured ∨ self.frameLoop = .closed := by
      apply isConfigured_eq_false.mp
      by_contra configured
      exact outside (by simpa using configured) outcome rfl
    rcases states with loop | loop <;> constructor <;>
      simp [Window.call, Window.draw, admitDraw, setRedrawRequested, loop]
  | requestRedraw =>
    obtain ⟨ticking, rescheduleRequested, presentationFailed, parked, retry, awaiting⟩ := held
    cases loop : self.frameLoop <;> constructor <;>
      simp_all [Window.call, Window.requestRedraw, Window.scheduleFrame, setRedrawRequested, enter, ping, emit]
  | scheduleFrame =>
    obtain ⟨ticking, rescheduleRequested, presentationFailed, parked, retry, awaiting⟩ := held
    cases loop : self.frameLoop <;> constructor <;>
      simp_all [Window.call, Window.scheduleFrame, enter, ping, emit]
  | commit =>
    obtain ⟨ticking, rescheduleRequested, presentationFailed, parked, retry, awaiting⟩ := held
    refine ⟨ticking, rescheduleRequested, presentationFailed, parked, retry, fun loop => ?_⟩
    simp [Window.call, Window.commit, awaiting loop]
  | close => constructor <;> simp [Window.call, enter, emit]
  | _ => exact ⟨held.1, held.2, held.3, held.4, held.5, held.6⟩

theorem ping_call {self : Window} (ping : self.frameLoop = .scheduled → self.pingPending = true)
    (call : Call) : (self.call call).frameLoop = .scheduled → (self.call call).pingPending = true := by
  cases call with
  | requestRedraw =>
    cases loop : self.frameLoop <;>
      simp_all [Window.call, Window.requestRedraw, Window.scheduleFrame, setRedrawRequested, enter, Window.ping, emit]
  | scheduleFrame =>
    cases loop : self.frameLoop <;>
      simp_all [Window.call, Window.scheduleFrame, enter, Window.ping, emit]
  | draw outcome =>
    obtain ⟨-, pinged, ⟨loop, -, -⟩ | ⟨loop, -⟩ | ⟨loop, -⟩⟩ := draw_cases self outcome <;>
      simp_all [Window.call]
  | close => simp [Window.call, enter, emit]
  | _ => exact ping

theorem SameLoop.held {self next : Window} (same : SameLoop self next) (held : Held self) : Held next := by
  obtain ⟨loop, redraw, presentation, pending, ping, timers, registered⟩ := same
  obtain ⟨ticking, rescheduleRequested, presentationFailed, parked, retry, awaiting⟩ := held
  constructor <;> simp_all

theorem SameLoop.registered {self next : Window} (same : SameLoop self next)
    (registered : Registered self) : Registered next := by
  intro opened
  apply same.requestFrame
  apply registered
  simpa [Window.isClosed, same.frameLoop] using opened

def Clear (self : Window) (calls : List Call) : Prop :=
  self.isConfigured = true → ∀ outcome, Call.draw outcome ∉ calls

theorem Moves.held {allowed : List Call} {self next : Window} (moves : Moves allowed self next)
    (clear : self.Clear allowed) (held : Held self) (registered : Registered self) :
    Held next ∧ Registered next ∧ (self.isConfigured = false → next.isConfigured = false) := by
  induction moves with
  | refl => exact ⟨held, registered, id⟩
  | call _ call member ih =>
    obtain ⟨beforeHeld, beforeRegistered, unconfigured⟩ := ih
    refine ⟨held_call beforeHeld ?_, registered_call beforeRegistered call,
      fun first => isConfigured_call call (unconfigured first)⟩
    intro configured outcome same
    apply clear _ outcome (same ▸ member)
    by_contra first
    rw [unconfigured (by simpa using first)] at configured
    exact absurd configured (by decide)
  | silent _ same ih =>
    obtain ⟨beforeHeld, beforeRegistered, unconfigured⟩ := ih
    refine ⟨same.held beforeHeld, same.registered beforeRegistered, fun first => ?_⟩
    simpa [Window.isConfigured, same.frameLoop] using unconfigured first

theorem Moves.ping {allowed : List Call} {self next : Window} (moves : Moves allowed self next)
    (ping : self.frameLoop = .scheduled → self.pingPending = true) :
    next.frameLoop = .scheduled → next.pingPending = true := by
  induction moves with
  | refl => exact ping
  | call _ call _ ih => exact ping_call ih call
  | silent _ same ih =>
    rw [same.frameLoop, same.pingPending]
    exact ih

/-! ## Inside a tick -/

theorem SameLoop.inTick {self next : Window} (same : SameLoop self next) (inTick : InTick self) : InTick next := by
  obtain ⟨loop, redraw, presentation, pending, ping, timers, registered⟩ := same
  obtain ⟨states, failed, awaiting⟩ := inTick
  constructor <;> simp_all

theorem inTick_call {self : Window} (inTick : InTick self) (call : Call) : InTick (self.call call) := by
  obtain ⟨states, failed, awaiting⟩ := inTick
  cases call with
  | requestRedraw =>
    rcases states with loop | loop | loop | loop | loop <;> constructor <;>
      simp_all [Window.call, Window.requestRedraw, Window.scheduleFrame, setRedrawRequested, enter, emit]
  | scheduleFrame =>
    rcases states with loop | loop | loop | loop | loop <;> constructor <;>
      simp_all [Window.call, Window.scheduleFrame, enter, emit]
  | draw outcome =>
    obtain ⟨-, -, ⟨loop, presentation, pending⟩ | ⟨loop, pending⟩ | ⟨loop, presentation⟩⟩ :=
      draw_cases self outcome <;> constructor <;> simp_all [Window.call]
  | commit =>
    refine ⟨states, failed, fun loop => ?_⟩
    simp [Window.call, Window.commit, awaiting loop]
  | close => constructor <;> simp [Window.call, enter, emit]
  | _ => exact ⟨states, failed, awaiting⟩

theorem Moves.inTick {allowed : List Call} {self next : Window} (moves : Moves allowed self next)
    (inTick : InTick self) : InTick next := by
  induction moves with
  | refl => exact inTick
  | call _ call _ ih => exact inTick_call ih call
  | silent _ same ih => exact same.inTick ih

theorem moves_updateImeEnabled (self : Window) (tick : Tick) :
    Moves (tick.acceptsText ++ tick.area.getD []) self (self.updateImeEnabled tick) := by
  have asked : Moves (tick.acceptsText ++ tick.area.getD []) self (self.withInputHandler tick.acceptsText) :=
    (Moves.refl self).withInputHandler (List.subset_append_left _ _)
  unfold Window.updateImeEnabled
  dsimp only
  split
  · exact .refl self
  · split
    · exact asked
    · split
      · exact asked
      · rename_i area
        apply asked.getImeArea
        rw [area]
        exact List.subset_append_right _ _

theorem scheduleRetry_settled {self : Window} (registration : Registration) :
    Settled (self.scheduleRetry registration) := by
  rcases registration with ⟨succeeds, closes⟩
  cases succeeds <;> cases closes <;> constructor <;> try constructor
  all_goals simp [Window.scheduleRetry, addRetryTimer, enter, Window.ping, emit]

theorem callbacks_scheduleRetry (self : Window) (registration : Registration) :
    (self.scheduleRetry registration).callbacks = self.callbacks := by
  rcases registration with ⟨succeeds, closes⟩
  cases succeeds <;> cases closes <;> simp [Window.scheduleRetry, addRetryTimer, enter, Window.ping, emit]

theorem completeFrame_settled {self : Window} (inTick : InTick self)
    (registered : self.callbacks .requestFrame = true) (registration : Registration) :
    Settled (self.completeFrame registration) ∧ Registered (self.completeFrame registration) := by
  have retried : Settled (self.scheduleRetry registration) ∧ Registered (self.scheduleRetry registration) := by
    refine ⟨scheduleRetry_settled registration, fun _ => ?_⟩
    rw [callbacks_scheduleRetry]
    exact registered
  unfold Window.completeFrame
  split
  · rename_i closed
    exact ⟨settled_of_closed closed, registered_of_closed closed⟩
  · split
    · rename_i awaiting
      refine ⟨⟨⟨?_, ?_, ?_, ?_, ?_, inTick.awaitingCallback⟩, ?_⟩, fun _ => registered⟩ <;>
        simp [awaiting]
    · split
      · split
        · refine ⟨?_, fun _ => ?_⟩
          · cases pending : self.pendingFrameCallback <;> constructor <;> try constructor
            all_goals simp [requestCallback, Window.commit, enter, emit, pending]
          · cases pending : self.pendingFrameCallback <;>
              simpa [requestCallback, Window.commit, enter, emit, pending] using registered
        · exact retried
      · split
        · exact retried
        · rename_i presented idle
          refine ⟨?_, fun _ => registered⟩
          rw [not_or] at idle
          constructor
          · constructor <;> simp_all [enter, emit]
          · simp [enter, emit]

theorem Moves.requestFrame {allowed : List Call} {self next : Window}
    (moves : Moves allowed self next) (registered : self.callbacks .requestFrame = true) :
    next.callbacks .requestFrame = true := by
  induction moves with
  | refl => exact registered
  | call _ call _ ih => exact callbacks_call call ih
  | silent _ same ih => exact same.requestFrame ih

theorem frame_settled {self : Window} (registered : Registered self) (tick : Tick) :
    Settled (self.frame tick) ∧ Registered (self.frame tick) := by
  unfold Window.frame
  split
  · rename_i closed
    exact ⟨settled_of_closed closed, registered_of_closed closed⟩
  · rename_i opened
    have present : self.beginTick.callbacks .requestFrame = true := registered (by simpa using opened)
    have started : InTick (self.beginTick.take .requestFrame) := by
      constructor <;> simp [take, beginTick, enter, emit]
    have called := ((Moves.refl _).calls (List.Subset.refl tick.callback)).inTick started
    dsimp only
    split
    · rename_i missing
      simp [present] at missing
    · split
      · rename_i closed
        exact ⟨settled_of_closed closed, registered_of_closed closed⟩
      · have updated := moves_updateImeEnabled
          (((self.beginTick.take .requestFrame).calls tick.callback).restore .requestFrame) tick
        apply completeFrame_settled
        · exact updated.inTick ((sameLoop_restore _ .requestFrame).inTick called)
        · apply updated.requestFrame
          simp [restore, register, emit]

end Window

/-! ## Events -/

def Event.outside : Event → List Call
  | .application calls => calls
  | .configure change _ => change.controls ++ change.visibility.getD [] ++ change.resize.getD []
  | .layerConfigure resize _ => resize.getD []
  | .resized changed => changed.getD []
  | .frameCallback _ => []
  | .ping before _ after => before ++ after
  | .pinged => []
  | .retryTimer _ => []
  | .input given => given.callback ++ given.text.getD []
  | .ime (.deleteText query _) calls => query ++ calls
  | .ime _ calls => calls
  | .imeArea calls => calls
  | .toplevelClose question _ children callback => question ++ children ++ callback
  | .toplevelDecoration calls | .focused calls | .hovered calls | .appearance calls
  | .buttonLayout calls => calls
  | .close children callback => children ++ callback

namespace Window

/-- Outside its ticks the application draws into the window only before it is configured. -/
def Admissible : Window → List Event → Prop
  | _, [] => True
  | self, event :: rest => self.Clear event.outside ∧ (self.step event).Admissible rest

def permitted (event : Event) : List Call := .requestRedraw :: .close :: event.outside

theorem outside_subset_permitted (event : Event) : event.outside ⊆ permitted event :=
  List.Subset.trans (List.subset_cons_self _ _) (List.subset_cons_self _ _)

theorem Clear.permitted {self : Window} {event : Event} (clear : self.Clear event.outside) :
    self.Clear (permitted event) := by
  intro configured outcome member
  simp only [Window.permitted, List.mem_cons, reduceCtorEq, false_or] at member
  exact clear configured outcome member

theorem Moves.settled {event : Event} {self next : Window}
    (moves : Moves (permitted event) self next) (clear : self.Clear event.outside)
    (settled : Settled self) (registered : Registered self) : Settled next ∧ Registered next := by
  obtain ⟨held, stillRegistered, -⟩ := moves.held clear.permitted settled.toHeld registered
  exact ⟨⟨held, moves.ping settled.scheduled⟩, stillRegistered⟩

theorem Registered.of_eq {self next : Window} (registered : Registered self)
    (frameLoop : next.frameLoop = self.frameLoop) (callbacks : next.callbacks = self.callbacks) : Registered next := by
  intro opened
  rw [callbacks]
  apply registered
  simpa [Window.isClosed, frameLoop] using opened

theorem configured_settled {event : Event} {self next : Window} {tick : Tick}
    (moves : Moves (permitted event) self next) (clear : self.Clear event.outside)
    (settled : Settled self) (registered : Registered self) (initial : Prop) [Decidable initial] :
    Settled (if next.isClosed then next else if initial then next.frame tick else next.requestRedraw) ∧
      Registered
        (if next.isClosed then next else if initial then next.frame tick else next.requestRedraw) := by
  split
  · exact moves.settled clear settled registered
  · split
    · exact frame_settled (moves.settled clear settled registered).2 tick
    · exact (moves.call .requestRedraw (by simp [permitted])).settled clear settled registered

theorem handleXdgSurfaceEvent_settled {self : Window} {configure : Configure} {tick : Tick}
    (clear : self.Clear (Event.configure configure tick).outside)
    (settled : Settled self) (registered : Registered self) :
    Settled (self.handleXdgSurfaceEvent configure tick) ∧ Registered (self.handleXdgSurfaceEvent configure tick) := by
  have subset := outside_subset_permitted (.configure configure tick)
  simp only [Event.outside, List.append_subset] at subset
  obtain ⟨⟨controls, visibility⟩, resize⟩ := subset
  have controlled := (Moves.refl self).calls controls
  have throttled : Moves (permitted (.configure configure tick)) self
      (if configure.resizing = some true then
        { self.calls configure.controls with resizeThrottle := true }
      else self.calls configure.controls) := by
    split
    · exact controlled.silent (by constructor <;> simp)
    · exact controlled
  unfold Window.handleXdgSurfaceEvent
  dsimp only
  generalize (if configure.resizing = some true then
    { self.calls configure.controls with resizeThrottle := true }
    else self.calls configure.controls) = current at throttled ⊢
  cases changed : configure.visibility with
  | none =>
    dsimp only
    split
    · exact throttled.settled clear settled registered
    · exact configured_settled (throttled.setSizeAndScale resize) clear settled registered _
  | some calls =>
    have reported : Moves (permitted (.configure configure tick)) self (current.reportVisibility calls) :=
      throttled.notify (by decide) (by simpa [changed] using visibility)
    dsimp only
    split
    · exact reported.settled clear settled registered
    · exact configured_settled (reported.setSizeAndScale resize) clear settled registered _

theorem handleLayersurfaceEvent_settled {self : Window} {resize : Option (List Call)} {tick : Tick}
    (clear : self.Clear (Event.layerConfigure resize tick).outside)
    (settled : Settled self) (registered : Registered self) :
    Settled (self.handleLayersurfaceEvent resize tick) ∧ Registered (self.handleLayersurfaceEvent resize tick) := by
  have resized := (Moves.refl self).setSizeAndScale (outside_subset_permitted (.layerConfigure resize tick))
  unfold Window.handleLayersurfaceEvent
  split
  · exact ⟨settled, registered⟩
  · exact configured_settled resized clear settled registered _

theorem frameCallbackFired_settled {self : Window} (settled : Settled self) (registered : Registered self)
    (tick : Tick) : Settled (self.frameCallbackFired tick) ∧ Registered (self.frameCallbackFired tick) := by
  unfold Window.frameCallbackFired
  dsimp only
  split
  · apply frame_settled
    exact registered.of_eq rfl rfl
  · rename_i elsewhere
    refine ⟨⟨?_, settled.scheduled⟩, registered.of_eq rfl rfl⟩
    exact ⟨settled.ticking, settled.rescheduleRequested, settled.presentationFailed,
      settled.parked, settled.retryScheduled, fun awaiting => absurd awaiting elsewhere⟩

theorem retryTimerFired_settled {self : Window} (settled : Settled self) (registered : Registered self) (tick : Tick) :
    Settled ({ self with retryTimers := self.retryTimers - 1 }.retryTimerFired tick) ∧
    Registered ({ self with retryTimers := self.retryTimers - 1 }.retryTimerFired tick) := by
  unfold Window.retryTimerFired
  split
  · apply frame_settled
    exact registered.of_eq rfl rfl
  · rename_i elsewhere
    refine ⟨⟨?_, settled.scheduled⟩, registered.of_eq rfl rfl⟩
    exact ⟨settled.ticking, settled.rescheduleRequested, settled.presentationFailed,
      settled.parked, fun retry => absurd retry elsewhere, settled.awaitingCallback⟩

theorem scheduledFrameFired_settled {self : Window} (held : Held self) (registered : Registered self) (tick : Tick) :
    Settled (self.scheduledFrameFired tick) ∧ Registered (self.scheduledFrameFired tick) := by
  unfold Window.scheduledFrameFired
  split
  · exact frame_settled registered tick
  · rename_i elsewhere
    exact ⟨⟨held, fun scheduled => absurd scheduled elsewhere⟩, registered⟩

theorem ping_settled {self : Window} {before after : List Call} {tick : Tick}
    (clear : self.Clear (Event.ping before tick after).outside)
    (settled : Settled self) (registered : Registered self) :
    Settled (self.step (.ping before tick after)) ∧ Registered (self.step (.ping before tick after)) := by
  have subset := outside_subset_permitted (.ping before tick after)
  simp only [Event.outside, List.append_subset] at subset
  have taken : Held { self with pingPending := false } :=
    ⟨settled.ticking, settled.rescheduleRequested, settled.presentationFailed, settled.parked,
      settled.retryScheduled, settled.awaitingCallback⟩
  have earlier := (Moves.refl { self with pingPending := false }).calls subset.1
  obtain ⟨held, stillRegistered, unconfigured⟩ := earlier.held clear.permitted taken (registered.of_eq rfl rfl)
  obtain ⟨fired, firedRegistered⟩ := scheduledFrameFired_settled held stillRegistered tick
  apply ((Moves.refl _).calls subset.2).settled _ fired firedRegistered
  intro configured outcome member
  refine clear ?_ outcome member
  by_contra first
  -- A window that is not configured has no frame scheduled, so nothing has ticked.
  rw [Bool.not_eq_true] at first
  have states := isConfigured_eq_false.mp (unconfigured first)
  rw [Window.scheduledFrameFired, if_neg (by rcases states with loop | loop <;> simp [loop])] at configured
  rw [isConfigured_eq_false.mpr states] at configured
  exact absurd configured (by decide)

theorem toplevelClose_moves (self : Window) (question : List Call) (answer : Bool) (children callback : List Call) :
    Moves (permitted (.toplevelClose question answer children callback)) self
      (self.handleToplevelClose question answer children callback) := by
  have subset := outside_subset_permitted (.toplevelClose question answer children callback)
  simp only [Event.outside, List.append_subset] at subset
  obtain ⟨⟨questionSubset, childrenSubset⟩, callbackSubset⟩ := subset
  have closes : Call.close ∈ permitted (.toplevelClose question answer children callback) := by
    simp [permitted]
  unfold Window.handleToplevelClose
  dsimp only
  split
  · have asked := (Moves.refl self).notify (by decide : Handler.shouldClose ≠ .requestFrame) questionSubset
    split
    · exact (asked.close closes childrenSubset callbackSubset).close closes (by simp) (by simp)
    · exact asked
  · exact (Moves.refl self).close closes childrenSubset callbackSubset

theorem dispatch_settled {self : Window} {handle : Window → Window} (settled : Settled self)
    (registered : Registered self) (handled : Settled (handle self) ∧ Registered (handle self)) :
    Settled (self.dispatch handle) ∧ Registered (self.dispatch handle) := by
  unfold Window.dispatch
  split
  · exact ⟨settled, registered⟩
  · exact handled

theorem step_settled {self : Window} {event : Event} (clear : self.Clear event.outside) (settled : Settled self)
    (registered : Registered self) : Settled (self.step event) ∧ Registered (self.step event) := by
  have subset := outside_subset_permitted event
  have start : Moves (permitted event) self self := .refl self
  cases event with
  | application calls => exact (start.calls subset).settled clear settled registered
  | configure configure tick =>
    apply dispatch_settled settled registered
    exact handleXdgSurfaceEvent_settled clear settled registered
  | layerConfigure resize tick =>
    apply dispatch_settled settled registered
    exact handleLayersurfaceEvent_settled clear settled registered
  | resized changed =>
    have moves := (start.setSizeAndScale subset).call .requestRedraw (by simp [permitted])
    exact moves.settled clear settled registered
  | frameCallback tick =>
    apply dispatch_settled settled registered
    exact frameCallbackFired_settled settled registered tick
  | ping before tick after => exact ping_settled clear settled registered
  | pinged =>
    exact ⟨⟨⟨settled.ticking, settled.rescheduleRequested, settled.presentationFailed,
      settled.parked, settled.retryScheduled, settled.awaitingCallback⟩, fun _ => rfl⟩,
      registered.of_eq rfl rfl⟩
  | retryTimer tick =>
    simp only [step, Window.dispatch]
    split
    · rename_i closed
      exact ⟨settled_of_closed closed, registered_of_closed closed⟩
    · exact retryTimerFired_settled settled registered tick
  | input input =>
    simp only [Event.outside, List.append_subset] at subset
    exact (start.handleInput subset.1 subset.2).settled clear settled registered
  | ime input calls =>
    have moves : Moves (permitted (.ime input calls)) self (self.handleIme input calls) := by
      cases input with
      | deleteText query marked =>
        simp only [Event.outside, List.append_subset] at subset
        refine start.handleIme ?_ subset.2
        intro query' marked' same
        cases same
        exact subset.1
      | _ => exact start.handleIme (by simp) subset
    exact moves.settled clear settled registered
  | imeArea calls => exact (start.getImeArea subset).settled clear settled registered
  | toplevelClose question answer children callback =>
    apply dispatch_settled settled registered
    exact (toplevelClose_moves self question answer children callback).settled clear settled registered
  | toplevelDecoration calls =>
    apply dispatch_settled settled registered
    have told := start.notify (by decide : Handler.appearanceChanged ≠ .requestFrame) subset
    have moves := told.call .requestRedraw (by simp [permitted])
    exact moves.settled clear settled registered
  | focused calls => exact (start.notify (by decide) subset).settled clear settled registered
  | hovered calls => exact (start.notify (by decide) subset).settled clear settled registered
  | appearance calls => exact (start.notify (by decide) subset).settled clear settled registered
  | buttonLayout calls => exact (start.notify (by decide) subset).settled clear settled registered
  | close children callback =>
    simp only [Event.outside, List.append_subset] at subset
    exact (start.close (by simp [permitted]) subset.1 subset.2).settled clear settled registered

theorem new_settled (callbacks : Handler → Bool) : Settled (new callbacks) := by
  constructor
  · constructor <;> simp [new]
  · simp [new]

theorem run_settled {self : Window} {events : List Event} (admissible : self.Admissible events)
    (settled : Settled self) (registered : Registered self) : Settled (self.run events) := by
  induction events generalizing self with
  | nil => exact settled
  | cons event rest ih =>
    obtain ⟨clear, restAdmissible⟩ := admissible
    obtain ⟨stepSettled, stepRegistered⟩ := step_settled clear settled registered
    exact ih restAdmissible stepSettled stepRegistered

/-- No wake is lost, whatever the order of the events and whatever happens inside the ticks. -/
theorem wake_held (callbacks : Handler → Bool) (registered : callbacks .requestFrame = true) (events : List Event)
    (admissible : (new callbacks).Admissible events) : Settled ((new callbacks).run events) :=
  run_settled admissible (new_settled callbacks) (fun _ => registered)

theorem wake_held_firstFrame : Settled ((new fun _ => true).run [.application [.draw (.rendered true false)],
        .configure ⟨[], none, none, none⟩ ⟨[.draw (.rendered true false)], false, [], none, ⟨true, false⟩⟩,
        .application [.requestRedraw]]) := by
  apply wake_held (fun _ => true) rfl
  refine ⟨fun configured => ?_, fun _ => by simp [Event.outside], fun _ => by simp [Event.outside], trivial⟩
  simp [new, Window.isConfigured] at configured

end Window

end Pinrail.Wayland
