import Pinrail.Wayland.FrameLoop

/-!
# A closed window

Closing revokes everything: after it the window enters no other state, asks for no wake, admits no
draw and takes no input. The callbacks that report an input or a change, and the question whether to
close, go back into the table even if they closed the window or it was closed before.
-/

namespace Pinrail.Wayland

namespace Window

def Absorbed (self : Window) : Prop :=
  ∀ before after, self.log = before ++ .entered .closed :: after →
    self.frameLoop = .closed ∧ ∀ effect ∈ after, effect = .entered .closed

/-! ## The log -/

theorem Absorbed.of_eq {self next : Window} (absorbed : Absorbed self)
    (frameLoop : next.frameLoop = self.frameLoop) (log : next.log = self.log) : Absorbed next := by
  intro before after split
  rw [frameLoop]
  exact absorbed before after (log ▸ split)

theorem Absorbed.not_mem {self : Window} (absorbed : Absorbed self) (opened : self.isClosed = false) :
    Effect.entered .closed ∉ self.log := by
  intro member
  obtain ⟨before, after, split⟩ := List.append_of_mem member
  exact isClosed_eq_false.mp opened (absorbed before after split).1

theorem split_snoc {log before after : List Effect} {effect mark : Effect}
    (split : log ++ [effect] = before ++ mark :: after) :
    (after = [] ∧ effect = mark) ∨ ∃ rest, after = rest ++ [effect] ∧ log = before ++ mark :: rest := by
  rcases List.eq_nil_or_concat after with empty | ⟨rest, last, concat⟩
  · left
    subst empty
    exact ⟨rfl, (List.append_inj' split rfl).2 |> List.singleton_inj.mp⟩
  · right
    subst concat
    rw [List.concat_eq_append, ← List.cons_append, ← List.append_assoc] at split
    obtain ⟨logEq, effectEq⟩ := List.append_inj' split rfl
    exact ⟨rest, by rw [List.concat_eq_append, effectEq], logEq⟩

theorem Absorbed.append {self next : Window} (absorbed : Absorbed self)
    (opened : self.isClosed = false) {effect : Effect} (log : next.log = self.log ++ [effect])
    (closes : effect = .entered .closed → next.frameLoop = .closed) : Absorbed next := by
  intro before after split
  rw [log] at split
  rcases split_snoc split with ⟨rfl, same⟩ | ⟨rest, -, earlier⟩
  · exact ⟨closes same, by simp⟩
  · have member : Effect.entered .closed ∈ self.log := by simp [earlier]
    exact absurd member (absorbed.not_mem opened)

theorem Absorbed.emit {self : Window} (absorbed : Absorbed self) (opened : self.isClosed = false)
    {effect : Effect} (other : effect ≠ .entered .closed) : Absorbed (self.emit effect) :=
  absorbed.append opened rfl (fun same => absurd same other)

theorem Absorbed.enter {self : Window} (absorbed : Absorbed self) (opened : self.isClosed = false)
    (state : FrameLoop) : Absorbed (self.enter state) := by
  apply absorbed.append opened rfl
  intro same
  simpa [Window.enter, Window.emit] using same

theorem Absorbed.close {self : Window} (absorbed : Absorbed self) : Absorbed (self.enter .closed) := by
  intro before after split
  refine ⟨rfl, ?_⟩
  rcases split_snoc split with ⟨rfl, -⟩ | ⟨rest, rfl, earlier⟩
  · simp
  · intro effect member
    rcases List.mem_append.mp member with inRest | last
    · exact (absorbed before rest earlier).2 effect inRest
    · exact List.mem_singleton.mp last

/-! ## An open window -/

structure Live (window : Window) : Prop where
  absorbed : Absorbed window
  opened : window.isClosed = false

theorem Live.of_eq {self next : Window} (live : Live self)
    (frameLoop : next.frameLoop = self.frameLoop) (log : next.log = self.log) : Live next := by
  refine ⟨live.absorbed.of_eq frameLoop log, ?_⟩
  rw [isClosed_eq_false, frameLoop]
  exact isClosed_eq_false.mp live.opened

theorem Live.emit {self : Window} (live : Live self) {effect : Effect}
    (other : effect ≠ .entered .closed) : Live (self.emit effect) :=
  ⟨live.absorbed.emit live.opened other, live.opened⟩

theorem Live.enter {self : Window} (live : Live self) {state : FrameLoop} (other : state ≠ .closed) :
    Live (self.enter state) :=
  ⟨live.absorbed.enter live.opened state, isClosed_eq_false.mpr other⟩

theorem Live.ping {self : Window} (live : Live self) : Live self.ping := by
  have pending : Live { self with pingPending := true } := live.of_eq rfl rfl
  exact pending.emit (by simp)

theorem Live.take {self : Window} (live : Live self) (handler : Handler) : Live (self.take handler) :=
  live.of_eq rfl rfl

theorem Live.restore {self : Window} (live : Live self) (handler : Handler) : Live (self.restore handler) := by
  have registered : Live (self.register handler) := live.of_eq rfl rfl
  exact registered.emit (by simp)

theorem Live.requestCallback {self : Window} (live : Live self) : Live self.requestCallback := by
  unfold Window.requestCallback
  split
  · have requested : Live { self with pendingFrameCallback := some .requested } := live.of_eq rfl rfl
    exact requested.emit (by simp)
  · exact live

theorem Live.scheduleFrame {self : Window} (live : Live self) : Live self.scheduleFrame := by
  unfold Window.scheduleFrame
  split
  · exact (live.enter (by decide)).ping
  · exact live.enter (by decide)
  · exact live

theorem Live.setRedrawRequested {self : Window} (live : Live self) (redrawRequested : Bool) :
    Live (self.setRedrawRequested redrawRequested) := live.of_eq rfl rfl

theorem Live.present {self : Window} (live : Live self) (presented : Bool) : Live (self.present presented) := by
  unfold Window.present
  split
  · have committed : Live { self.commit with presentation := .presented } := live.of_eq rfl rfl
    exact committed.enter (by decide)
  · have failed : Live { self with presentation := self.presentation.failed } := live.of_eq rfl rfl
    exact failed.enter (by decide)

theorem Live.draw {self : Window} (live : Live self) (outcome : DrawOutcome) : Live (self.draw outcome) := by
  unfold Window.draw
  dsimp only
  split
  · exact live.setRedrawRequested _
  · have admitted := (live.setRedrawRequested
      (admitDraw self.frameLoop self.redrawRequested).2).emit (by simp : Effect.admittedDraw ≠ _)
    cases outcome with
    | deviceLost => exact admitted.setRedrawRequested true
    | rendered presented needsRedraw =>
      have drawn := ((admitted.setRedrawRequested false).requestCallback).present presented
      dsimp only
      split
      · exact drawn.setRedrawRequested true
      · exact drawn

theorem Live.call {self : Window} (live : Live self) {call : Call} (other : call ≠ .close) : Live (self.call call) := by
  cases call with
  | requestRedraw =>
    exact (live.setRedrawRequested true).scheduleFrame
  | scheduleFrame => exact live.scheduleFrame
  | draw outcome => exact live.draw outcome
  | close => exact absurd rfl other
  | _ => exact live.of_eq rfl rfl

theorem Live.calls {self : Window} (live : Live self) {calls : List Call} (spared : .close ∉ calls) :
    Live (self.calls calls) := by
  induction calls generalizing self with
  | nil => exact live
  | cons call rest ih =>
    simp only [List.mem_cons, not_or] at spared
    exact ih (live.call (Ne.symm spared.1)) spared.2

/-! ## Any window -/

theorem Absorbed.call {self : Window} (absorbed : Absorbed self) (call : Call) : Absorbed (self.call call) := by
  by_cases closes : call = .close
  · subst closes
    exact absorbed.close
  · cases opened : self.isClosed with
    | false => exact (Live.call ⟨absorbed, opened⟩ closes).absorbed
    | true =>
      have loop := isClosed_eq_true.mp opened
      apply absorbed.of_eq
      · cases call <;> simp_all [Window.call, Window.requestRedraw, Window.scheduleFrame,
          Window.draw, admitDraw, Window.commit, Window.setRedrawRequested, register]
      · cases call <;> simp_all [Window.call, Window.requestRedraw, Window.scheduleFrame,
          Window.draw, admitDraw, Window.commit, Window.setRedrawRequested, register]

theorem Absorbed.calls {self : Window} (absorbed : Absorbed self) (calls : List Call) :
    Absorbed (self.calls calls) := by
  induction calls generalizing self with
  | nil => exact absorbed
  | cons call rest ih => exact ih (absorbed.call call)

theorem Live.scheduleRetry {self : Window} (live : Live self) (registration : Registration) :
    Absorbed (self.scheduleRetry registration) := by
  have registering : Live ((self.enter .retryScheduled).emit .registeringRetry) :=
    (live.enter (by decide)).emit (by simp)
  have added : Live (if registration.succeeds then
      ((self.enter .retryScheduled).emit .registeringRetry).addRetryTimer
      else (self.enter .retryScheduled).emit .registeringRetry) := by
    split
    · exact registering.of_eq rfl rfl
    · exact registering
  unfold Window.scheduleRetry
  dsimp only
  generalize (if registration.succeeds then
    ((self.enter .retryScheduled).emit .registeringRetry).addRetryTimer
    else (self.enter .retryScheduled).emit .registeringRetry) = current at added ⊢
  cases registration.closes with
  | true =>
    -- The window was closed while the timer was being inserted, so no ping follows.
    simpa [Window.enter, Window.emit] using added.absorbed.close
  | false =>
    simp only [Bool.false_eq_true, if_false]
    split
    · exact (added.enter (by decide)).ping.absorbed
    · exact added.absorbed

theorem Absorbed.completeFrame {self : Window} (absorbed : Absorbed self)
    (registration : Registration) : Absorbed (self.completeFrame registration) := by
  unfold Window.completeFrame
  split
  · exact absorbed
  · rename_i opened
    have live : Live self := ⟨absorbed, by simpa using opened⟩
    split
    · exact absorbed
    · split
      · split
        · have committed : Live self.requestCallback.commit := live.requestCallback.of_eq rfl rfl
          exact (committed.enter (by decide)).absorbed
        · exact live.scheduleRetry registration
      · split
        · exact live.scheduleRetry registration
        · exact (live.enter (by decide)).absorbed

theorem Absorbed.putBackInputHandler {self : Window} (absorbed : Absorbed self) :
    Absorbed self.putBackInputHandler := by
  unfold Window.putBackInputHandler
  split
  · exact absorbed
  · rename_i opened
    have live : Live { self with inputHandler := true } := Live.of_eq ⟨absorbed, by simpa using opened⟩ rfl rfl
    exact (live.emit (by simp)).absorbed

theorem Absorbed.withInputHandler {self : Window} (absorbed : Absorbed self) (calls : List Call) :
    Absorbed (self.withInputHandler calls) := by
  unfold Window.withInputHandler
  split
  · have taken : Absorbed self.takeInputHandler := absorbed.of_eq rfl rfl
    exact (taken.calls calls).putBackInputHandler
  · exact absorbed

theorem Absorbed.getImeArea {self : Window} (absorbed : Absorbed self) (calls : List Call) :
    Absorbed (self.getImeArea calls) := by
  unfold Window.getImeArea
  split
  · exact absorbed
  · exact absorbed.withInputHandler calls

theorem Absorbed.updateImeEnabled {self : Window} (absorbed : Absorbed self) (tick : Tick) :
    Absorbed (self.updateImeEnabled tick) := by
  have asked := absorbed.withInputHandler tick.acceptsText
  unfold Window.updateImeEnabled
  dsimp only
  split
  · exact absorbed
  · split
    · exact asked
    · split
      · exact asked
      · exact asked.getImeArea _

theorem Absorbed.frame {self : Window} (absorbed : Absorbed self) (tick : Tick) : Absorbed (self.frame tick) := by
  unfold Window.frame
  split
  · exact absorbed
  · rename_i opened
    have live : Live self := ⟨absorbed, by simpa using opened⟩
    have begun : Live self.beginTick := by
      have entered : Live (self.enter .ticking) := live.enter (by decide)
      exact entered.of_eq rfl rfl
    have called := (begun.take .requestFrame).absorbed.calls tick.callback
    dsimp only
    split
    · exact (begun.enter (by decide)).absorbed
    · split
      · exact called
      · rename_i stillOpen
        have restored := Live.restore ⟨called, by simpa using stillOpen⟩ .requestFrame
        exact (restored.absorbed.updateImeEnabled tick).completeFrame tick.registration

theorem Absorbed.frameCallbackFired {self : Window} (absorbed : Absorbed self) (tick : Tick) :
    Absorbed (self.frameCallbackFired tick) := by
  have fired : Absorbed { self with pendingFrameCallback := none } := absorbed.of_eq rfl rfl
  unfold Window.frameCallbackFired
  dsimp only
  split
  · exact fired.frame tick
  · exact fired

theorem Absorbed.scheduledFrameFired {self : Window} (absorbed : Absorbed self) (tick : Tick) :
    Absorbed (self.scheduledFrameFired tick) := by
  unfold Window.scheduledFrameFired
  split
  · exact absorbed.frame tick
  · exact absorbed

theorem Absorbed.retryTimerFired {self : Window} (absorbed : Absorbed self) (tick : Tick) :
    Absorbed (self.retryTimerFired tick) := by
  unfold Window.retryTimerFired
  split
  · exact absorbed.frame tick
  · exact absorbed

end Window

/-! ## Events -/

/-- A callback that is put back without a look at the window finds it open and leaves it so. -/
def Window.Leaves (self : Window) (handler : Handler) (calls : List Call) : Prop :=
  self.callbacks handler = true → self.isClosed = false ∧ .close ∉ calls

/-- No callback that is put back without a look at the window closes it or finds it closed, and no
input handler closes it while it is asked for the text to delete. -/
def Event.Spares (self : Window) : Event → Prop
  | .configure change _ =>
    (∀ calls ∈ change.visibility, .close ∉ change.controls ∧ .close ∉ calls) ∧ ∀ calls ∈ change.resize, .close ∉ calls
  | .layerConfigure change _ => ∀ calls ∈ change, .close ∉ calls
  | .resized changed => ∀ calls ∈ changed, .close ∉ calls
  | .input given => .close ∉ given.callback
  | .ime (.deleteText query marked) _ => marked = true → .close ∉ query
  | .toplevelClose question _ _ _ => .close ∉ question
  | .toplevelDecoration calls => .close ∉ calls
  | .focused calls => self.Leaves .activeStatusChange calls
  | .hovered calls => self.Leaves .hoverStatusChange calls
  | .appearance calls => self.Leaves .appearanceChanged calls
  | .buttonLayout calls => self.Leaves .buttonLayoutChanged calls
  | _ => True

namespace Window

theorem Live.notify {self : Window} (live : Live self) {handler : Handler} {calls : List Call}
    (spared : .close ∉ calls) : Live (self.notify handler calls) := by
  unfold Window.notify
  split
  · exact ((live.take handler).calls spared).restore handler
  · exact live

theorem Absorbed.notify {self : Window} (absorbed : Absorbed self) {handler : Handler}
    {calls : List Call} (leaves : self.Leaves handler calls) : Absorbed (self.notify handler calls) := by
  by_cases registered : self.callbacks handler = true
  · obtain ⟨opened, spared⟩ := leaves registered
    exact (Live.notify ⟨absorbed, opened⟩ spared).absorbed
  · rwa [Window.notify, if_neg registered]

theorem Absorbed.setSizeAndScale {self : Window} (absorbed : Absorbed self) {changed : Option (List Call)}
    (spared : ∀ calls ∈ changed, .close ∉ calls) : Absorbed (self.setSizeAndScale changed) := by
  unfold Window.setSizeAndScale
  split
  · exact absorbed
  · rename_i calls
    split
    · exact absorbed
    · rename_i opened
      have live : Live self := ⟨absorbed, by simpa using opened⟩
      exact (live.notify (spared calls rfl)).absorbed

theorem Absorbed.configured {self : Window} (absorbed : Absorbed self) (tick : Tick)
    (initial : Prop) [Decidable initial] :
    Absorbed (if self.isClosed then self else if initial then self.frame tick
      else self.requestRedraw) := by
  split
  · exact absorbed
  · split
    · exact absorbed.frame tick
    · exact absorbed.call .requestRedraw

theorem Live.handleXdgSurfaceEvent {self : Window} (live : Live self) {configure : Configure} {tick : Tick}
    (spared : (Event.configure configure tick).Spares self) : Absorbed (self.handleXdgSurfaceEvent configure tick) := by
  obtain ⟨visibility, resize⟩ := spared
  unfold Window.handleXdgSurfaceEvent
  dsimp only
  cases changed : configure.visibility with
  | none =>
    have reported : Absorbed (if configure.resizing = some true then
        { self.calls configure.controls with resizeThrottle := true }
        else self.calls configure.controls) := by
      have controlled := live.absorbed.calls configure.controls
      split
      · exact controlled.of_eq rfl rfl
      · exact controlled
    dsimp only
    split
    · exact reported
    · exact (reported.setSizeAndScale resize).configured tick _
  | some calls =>
    obtain ⟨controlsSpared, callsSpared⟩ := visibility calls changed
    have reported : Absorbed ((if configure.resizing = some true then
        { self.calls configure.controls with resizeThrottle := true }
        else self.calls configure.controls).reportVisibility calls) := by
      have controlled := live.calls controlsSpared
      apply Live.absorbed
      refine Live.notify ?_ callsSpared
      split
      · exact controlled.of_eq rfl rfl
      · exact controlled
    dsimp only
    split
    · exact reported
    · exact (reported.setSizeAndScale resize).configured tick _

theorem Absorbed.handleLayersurfaceEvent {self : Window} (absorbed : Absorbed self)
    {resize : Option (List Call)} (spared : ∀ calls ∈ resize, .close ∉ calls) (tick : Tick) :
    Absorbed (self.handleLayersurfaceEvent resize tick) := by
  unfold Window.handleLayersurfaceEvent
  split
  · exact absorbed
  · exact (absorbed.setSizeAndScale spared).configured tick _

theorem Absorbed.handleInput {self : Window} (absorbed : Absorbed self) {input : Input}
    (spared : .close ∉ input.callback) : Absorbed (self.handleInput input) := by
  unfold Window.handleInput
  split
  · exact absorbed
  · rename_i unblocked
    simp only [isBlocked, Bool.or_eq_true, not_or, Bool.not_eq_true] at unblocked
    have live : Live self := ⟨absorbed, unblocked.1⟩
    have delivered : Live (self.inputCallback input.callback) := by
      unfold Window.inputCallback
      split
      · exact (((live.take .input).emit (by simp)).calls spared).restore .input
      · exact live
    dsimp only
    split
    · exact delivered.absorbed
    · unfold Window.insertText
      split
      · exact delivered.absorbed
      · split
        · exact (delivered.emit (by simp)).absorbed.withInputHandler _
        · exact delivered.absorbed

theorem Absorbed.handleIme {self : Window} (absorbed : Absorbed self) {input : ImeInput} {calls : List Call}
    (spared : (Event.ime input calls).Spares self) : Absorbed (self.handleIme input calls) := by
  unfold Window.handleIme
  split
  · exact absorbed
  · rename_i unblocked
    simp only [isBlocked, Bool.or_eq_true, not_or, Bool.not_eq_true] at unblocked
    have live : Live self := ⟨absorbed, unblocked.1⟩
    have taken : Live self.takeInputHandler := live.of_eq rfl rfl
    split
    · apply Absorbed.putBackInputHandler
      cases input with
      | deleteText query marked =>
        dsimp only
        split
        · rename_i isMarked
          exact ((taken.calls (spared isMarked)).emit (by simp)).absorbed.calls calls
        · exact taken.absorbed.calls query
      | _ => exact (taken.emit (by simp)).absorbed.calls calls
    · exact absorbed

theorem Absorbed.closeWindow {self : Window} (absorbed : Absorbed self)
    (children callback : List Call) : Absorbed (self.close children callback) := by
  have closed := absorbed.close.calls children
  unfold Window.close
  dsimp only
  split
  · have taken : Absorbed (((self.enter .closed).calls children).take .close) := closed.of_eq rfl rfl
    exact taken.calls callback
  · exact closed

theorem Live.handleToplevelClose {self : Window} (live : Live self) {question : List Call}
    (spared : .close ∉ question) (answer : Bool) (children callback : List Call) :
    Absorbed (self.handleToplevelClose question answer children callback) := by
  have asked : Live (self.notify .shouldClose question) := live.notify spared
  unfold Window.handleToplevelClose
  dsimp only
  split
  · split
    · exact (asked.absorbed.closeWindow children callback).closeWindow [] []
    · exact asked.absorbed
  · exact live.absorbed.closeWindow children callback

theorem Absorbed.dispatch {self : Window} (absorbed : Absorbed self) {handle : Window → Window}
    (handled : Live self → Absorbed (handle self)) : Absorbed (self.dispatch handle) := by
  unfold Window.dispatch
  split
  · exact absorbed
  · rename_i opened
    exact handled ⟨absorbed, by simpa using opened⟩

theorem Absorbed.step {self : Window} (absorbed : Absorbed self) {event : Event}
    (spared : event.Spares self) : Absorbed (self.step event) := by
  cases event with
  | application calls => exact absorbed.calls calls
  | configure configure tick =>
    exact absorbed.dispatch fun live => live.handleXdgSurfaceEvent spared
  | layerConfigure resize tick =>
    exact absorbed.dispatch fun live => live.absorbed.handleLayersurfaceEvent spared tick
  | resized changed => exact (absorbed.setSizeAndScale spared).call .requestRedraw
  | frameCallback tick =>
    exact absorbed.dispatch fun live => live.absorbed.frameCallbackFired tick
  | ping before tick after =>
    have taken : Absorbed { self with pingPending := false } := absorbed.of_eq rfl rfl
    exact ((taken.calls before).scheduledFrameFired tick).calls after
  | pinged => exact absorbed.of_eq rfl rfl
  | retryTimer tick =>
    have fired : Absorbed { self with retryTimers := self.retryTimers - 1 } := absorbed.of_eq rfl rfl
    exact fired.dispatch fun live => live.absorbed.retryTimerFired tick
  | input input => exact absorbed.handleInput spared
  | ime input calls => exact absorbed.handleIme spared
  | imeArea calls => exact absorbed.getImeArea calls
  | toplevelClose question answer children callback =>
    exact absorbed.dispatch fun live => live.handleToplevelClose spared answer children callback
  | toplevelDecoration calls =>
    exact absorbed.dispatch fun live => (live.notify spared).absorbed.call .requestRedraw
  | focused calls => exact absorbed.notify spared
  | hovered calls => exact absorbed.notify spared
  | appearance calls => exact absorbed.notify spared
  | buttonLayout calls => exact absorbed.notify spared
  | close children callback => exact absorbed.closeWindow children callback

def Spared : Window → List Event → Prop
  | _, [] => True
  | self, event :: rest => event.Spares self ∧ (self.step event).Spared rest

/-- In a run whose events all spare the window, closing it is final. -/
theorem closed_absorbing (callbacks : Handler → Bool) (events : List Event)
    (spared : (new callbacks).Spared events) : Absorbed ((new callbacks).run events) := by
  have start : Absorbed (new callbacks) := by
    intro before after split
    simp [new] at split
  generalize new callbacks = self at start spared ⊢
  induction events generalizing self with
  | nil => exact start
  | cons event rest ih => exact ih _ (start.step spared.1) spared.2

theorem closed_absorbing_insideTick : Absorbed ((new fun _ => true).run [.focused [.requestRedraw],
        .configure ⟨[], none, none, none⟩
          ⟨[.requestRedraw, .close, .draw (.rendered true false)], true, [], none, ⟨false, true⟩⟩,
        .application [.requestRedraw], .input ⟨[], true, some []⟩]) :=
  closed_absorbing _ _ ⟨fun _ => ⟨rfl, by decide⟩, ⟨by simp, by simp⟩, trivial, by simp [Event.Spares], trivial⟩

/-- An input callback that closes the window is back in the table afterwards. -/
theorem closed_restores_input : ¬ Absorbed ((new fun _ => true).run
      [.configure ⟨[], none, none, none⟩ ⟨[], true, [], none, ⟨true, false⟩⟩, .input ⟨[.close], true, none⟩]) := by
  intro absorbed
  have split := (absorbed [.entered .ticking, .restored .requestFrame, .entered .parked, .deliveredInput]
    [.restored .input] (by decide)).2
  exact absurd (split (.restored .input) (by simp)) (by decide)

end Window

end Pinrail.Wayland
