import Mathlib.Logic.Function.Basic
import Mathlib.Tactic.Common

/-!
# The frame loop of a Wayland window

`frame_loop.rs` and the parts of `window.rs` that drive it. One enumeration says who owns the wake
for the next frame: the compositor's frame callback, the ping shared by all windows, a retry timer,
or nobody.

Application code runs inside most handlers and reaches the window through its public interface; what
it does there is a list of calls. The renderer runs with the window borrowed, so no call comes from
inside a draw. A frame callback is sent with the next commit of the surface. The ping is shared:
another window may ping, and a dispatch visits other windows before and after this one.

What the window does to the outside is kept in a log, in order.
-/

namespace Pinrail.Wayland

inductive PresentationState where
  | unpresented
  | presented
  | retryBeforeFirstPresent
  | retryAfterPresent
deriving DecidableEq

namespace PresentationState

def requiresPresentation : PresentationState → Bool
  | retryBeforeFirstPresent | retryAfterPresent => true
  | unpresented | presented => false

def failed : PresentationState → PresentationState
  | unpresented | retryBeforeFirstPresent => retryBeforeFirstPresent
  | presented | retryAfterPresent => retryAfterPresent

theorem requiresPresentation_failed (self : PresentationState) : self.failed.requiresPresentation = true := by
  cases self <;> rfl

end PresentationState

inductive FrameLoop where
  | unconfigured
  | ticking
  | rescheduleRequested
  | presentationFailed
  | awaitingCallback
  | scheduled
  | retryScheduled
  | parked
  | closed
deriving DecidableEq

def admitDraw (frameLoop : FrameLoop) (redrawRequested : Bool) : Bool × Bool :=
  match frameLoop with
  | .unconfigured => (false, true)
  | .closed => (false, redrawRequested)
  | _ => (true, redrawRequested)

inductive FrameCallback where
  | requested
  | committed
deriving DecidableEq

/-- The slots of `Callbacks`; nothing takes the callback for moves. -/
inductive Handler where
  | requestFrame
  | input
  | activeStatusChange
  | visibilityChange
  | hoverStatusChange
  | resize
  | moved
  | shouldClose
  | close
  | appearanceChanged
  | buttonLayoutChanged
deriving DecidableEq

inductive Effect where
  | entered (state : FrameLoop)
  | requestedCallback
  | pinged
  | registeringRetry
  | admittedDraw
  | deliveredInput
  | restored (handler : Handler)
  | restoredInputHandler
deriving DecidableEq

structure Window where
  frameLoop : FrameLoop := .unconfigured
  redrawRequested : Bool := false
  presentation : PresentationState := .unpresented
  pendingFrameCallback : Option FrameCallback := none
  resizeThrottle : Bool := false
  callbacks : Handler → Bool
  inputHandler : Bool := false
  childBlocks : Bool := false
  pingPending : Bool := false
  retryTimers : Nat := 0
  log : List Effect := []

inductive DrawOutcome where
  | deviceLost
  | rendered (presented needsRedraw : Bool)
deriving DecidableEq

inductive Call where
  | requestRedraw
  | scheduleFrame
  | draw (outcome : DrawOutcome)
  | commit
  | close
  | setInputHandler
  | takeInputHandler
  | register (handler : Handler)
  | block (blocks : Bool)
deriving DecidableEq

/-- How the registration of a retry timer goes; the window may be closed before it returns. -/
structure Registration where
  succeeds : Bool
  closes : Bool
deriving DecidableEq

/-- A tick: what the request-frame callback does, then what the input handler does when it is asked
whether it accepts text and where (only an active window asks), and the registration of a retry. -/
structure Tick where
  callback : List Call
  active : Bool
  acceptsText : List Call
  area : Option (List Call)
  registration : Registration
deriving DecidableEq

/-- A configure of an xdg surface: what the change of the window controls does, whether the configure
in progress is one of an interactive resize, and what the callbacks do that report a changed
visibility and a changed size. -/
structure Configure where
  controls : List Call
  resizing : Option Bool
  visibility : Option (List Call)
  resize : Option (List Call)
deriving DecidableEq

/-- An input event: what the input callback does with it and whether it lets the event propagate, and
what the input handler does with the text of a key. -/
structure Input where
  callback : List Call
  propagate : Bool
  text : Option (List Call)
deriving DecidableEq

inductive ImeInput where
  | insertText
  | setMarkedText
  | unmarkText
  /-- What asking for the marked text does, and whether some text is marked. -/
  | deleteText (query : List Call) (marked : Bool)
deriving DecidableEq

namespace Window

def isClosed (self : Window) : Bool := self.frameLoop = .closed

def isBlocked (self : Window) : Bool := self.isClosed || self.childBlocks

def isConfigured (self : Window) : Bool :=
  self.frameLoop ≠ .unconfigured && self.frameLoop ≠ .closed

def emit (self : Window) (effect : Effect) : Window := { self with log := self.log ++ [effect] }

def enter (self : Window) (state : FrameLoop) : Window :=
  { self with frameLoop := state }.emit (.entered state)

def ping (self : Window) : Window := { self with pingPending := true }.emit .pinged

def commit (self : Window) : Window :=
  { self with pendingFrameCallback := self.pendingFrameCallback.map fun _ => .committed }

def requestCallback (self : Window) : Window :=
  if self.pendingFrameCallback.isNone then
    { self with pendingFrameCallback := some .requested }.emit .requestedCallback
  else self

def take (self : Window) (handler : Handler) : Window :=
  { self with callbacks := Function.update self.callbacks handler false }

def register (self : Window) (handler : Handler) : Window :=
  { self with callbacks := Function.update self.callbacks handler true }

def restore (self : Window) (handler : Handler) : Window :=
  (self.register handler).emit (.restored handler)

def scheduleFrame (self : Window) : Window :=
  match self.frameLoop with
  | .parked => (self.enter .scheduled).ping
  | .ticking => self.enter .rescheduleRequested
  | _ => self

def addRetryTimer (self : Window) : Window := { self with retryTimers := self.retryTimers + 1 }

def scheduleRetry (self : Window) (registration : Registration) : Window :=
  let self := (self.enter .retryScheduled).emit .registeringRetry
  let self := if registration.succeeds then self.addRetryTimer else self
  let self := if registration.closes then self.enter .closed else self
  if !registration.succeeds && self.frameLoop = .retryScheduled then (self.enter .scheduled).ping
  else self

def setRedrawRequested (self : Window) (redrawRequested : Bool) : Window :=
  { self with redrawRequested }

def requestRedraw (self : Window) : Window := (self.setRedrawRequested true).scheduleFrame

def present (self : Window) (presented : Bool) : Window :=
  if presented then { self.commit with presentation := .presented }.enter .awaitingCallback
  else { self with presentation := self.presentation.failed }.enter .presentationFailed

def draw (self : Window) (outcome : DrawOutcome) : Window :=
  let (admitted, redrawRequested) := admitDraw self.frameLoop self.redrawRequested
  let self := self.setRedrawRequested redrawRequested
  if !admitted then self
  else
    let self := self.emit .admittedDraw
    match outcome with
    | .deviceLost => self.setRedrawRequested true
    | .rendered presented needsRedraw =>
      let self := (self.setRedrawRequested false).requestCallback.present presented
      if needsRedraw then self.setRedrawRequested true else self

def call (self : Window) : Call → Window
  | .requestRedraw => self.requestRedraw
  | .scheduleFrame => self.scheduleFrame
  | .draw outcome => self.draw outcome
  | .commit => self.commit
  -- Application code drops the window.
  | .close => self.enter .closed
  | .setInputHandler => { self with inputHandler := true }
  | .takeInputHandler => { self with inputHandler := false }
  | .register handler => self.register handler
  | .block blocks => { self with childBlocks := blocks }

def calls (self : Window) (calls : List Call) : Window := calls.foldl call self

def completeFrame (self : Window) (registration : Registration) : Window :=
  if self.isClosed then self
  else if self.frameLoop = .awaitingCallback then self
  else if self.presentation.requiresPresentation then
    -- Once presented, the compositor paces the retries of a failed draw.
    if self.frameLoop = .presentationFailed ∧ self.presentation = .retryAfterPresent then
      self.requestCallback.commit.enter .awaitingCallback
    else self.scheduleRetry registration
  else if self.frameLoop = .rescheduleRequested ∨ self.redrawRequested = true then
    self.scheduleRetry registration
  else self.enter .parked

def takeInputHandler (self : Window) : Window := { self with inputHandler := false }

def putBackInputHandler (self : Window) : Window :=
  if self.isClosed then self
  else { self with inputHandler := true }.emit .restoredInputHandler

def withInputHandler (self : Window) (calls : List Call) : Window :=
  if self.inputHandler then (self.takeInputHandler.calls calls).putBackInputHandler else self

def getImeArea (self : Window) (calls : List Call) : Window :=
  if self.isClosed then self else self.withInputHandler calls

/-- `update_ime_enabled`; enabling the input method of the client asks for the area. -/
def updateImeEnabled (self : Window) (tick : Tick) : Window :=
  if !tick.active then self
  else
    let self := self.withInputHandler tick.acceptsText
    if self.isClosed then self
    else
      match tick.area with
      | none => self
      | some calls => self.getImeArea calls

def beginTick (self : Window) : Window := { self.enter .ticking with resizeThrottle := false }

def frame (self : Window) (tick : Tick) : Window :=
  if self.isClosed then self
  else
    let self := self.beginTick
    if !self.callbacks .requestFrame then self.enter .parked
    else
      let self := (self.take .requestFrame).calls tick.callback
      if self.isClosed then self
      else ((self.restore .requestFrame).updateImeEnabled tick).completeFrame tick.registration

def frameCallbackFired (self : Window) (tick : Tick) : Window :=
  let self := { self with pendingFrameCallback := none }
  if self.frameLoop = .awaitingCallback then self.frame tick else self

def scheduledFrameFired (self : Window) (tick : Tick) : Window :=
  if self.frameLoop = .scheduled then self.frame tick else self

def retryTimerFired (self : Window) (tick : Tick) : Window :=
  if self.frameLoop = .retryScheduled then self.frame tick else self

def notify (self : Window) (handler : Handler) (calls : List Call) : Window :=
  if self.callbacks handler then ((self.take handler).calls calls).restore handler else self

def reportVisibility (self : Window) (calls : List Call) : Window :=
  self.notify .visibilityChange calls

def setFocused (self : Window) (calls : List Call) : Window := self.notify .activeStatusChange calls

def setHovered (self : Window) (calls : List Call) : Window := self.notify .hoverStatusChange calls

def setAppearance (self : Window) (calls : List Call) : Window := self.notify .appearanceChanged calls

def setButtonLayout (self : Window) (calls : List Call) : Window :=
  self.notify .buttonLayoutChanged calls

def handleToplevelDecorationEvent (self : Window) (calls : List Call) : Window :=
  (self.notify .appearanceChanged calls).requestRedraw

/-- `resize` and `rescale`; nothing is given when the size and the scale stay as they are. -/
def setSizeAndScale (self : Window) (changed : Option (List Call)) : Window :=
  match changed with
  | none => self
  | some calls => if self.isClosed then self else self.notify .resize calls

def handleXdgSurfaceEvent (self : Window) (configure : Configure) (tick : Tick) : Window :=
  let self := self.calls configure.controls
  let throttled := configure.resizing = some true && self.resizeThrottle
  let self :=
    if configure.resizing = some true then { self with resizeThrottle := true } else self
  let self :=
    match configure.visibility with
    | none => self
    | some calls => self.reportVisibility calls
  if throttled then self
  else
    let self := self.setSizeAndScale configure.resize
    if self.isClosed then self
    else if self.frameLoop = .unconfigured then self.frame tick
    else self.requestRedraw

/-- `handle_layersurface_event` with a configure. -/
def handleLayersurfaceEvent (self : Window) (resize : Option (List Call)) (tick : Tick) : Window :=
  if self.isClosed then self
  else
    let self := self.setSizeAndScale resize
    if self.isClosed then self
    else if !self.isConfigured then self.frame tick
    else self.requestRedraw

def close (self : Window) (children callback : List Call) : Window :=
  let self := (self.enter .closed).calls children
  if self.callbacks .close then (self.take .close).calls callback else self

/-- `handle_toplevel_event` with a close request: what asking the application does, what it answers,
and what closing then does. -/
def handleToplevelClose (self : Window) (question : List Call) (answer : Bool)
    (children callback : List Call) : Window :=
  if self.callbacks .shouldClose then
    let self := self.notify .shouldClose question
    -- The dispatcher closes the window once more.
    if answer then (self.close children callback).close [] [] else self
  else self.close children callback

def inputCallback (self : Window) (calls : List Call) : Window :=
  if self.callbacks .input then
    (((self.take .input).emit .deliveredInput).calls calls).restore .input
  else self

def insertText (self : Window) (text : Option (List Call)) : Window :=
  match text with
  | none => self
  | some calls =>
    if self.inputHandler then (self.emit .deliveredInput).withInputHandler calls else self

def handleInput (self : Window) (input : Input) : Window :=
  if self.isBlocked then self
  else
    let next := self.inputCallback input.callback
    if self.callbacks .input && (!input.propagate || next.isClosed) then next
    else next.insertText input.text

/-- Text is deleted only if some is marked; every other input goes straight to the handler. -/
def handleIme (self : Window) (input : ImeInput) (calls : List Call) : Window :=
  if self.isBlocked then self
  else if self.inputHandler then
    let self := self.takeInputHandler
    let self :=
      match input with
      | .deleteText query marked =>
        let self := self.calls query
        if marked then (self.emit .deliveredInput).calls calls else self
      | _ => (self.emit .deliveredInput).calls calls
    self.putBackInputHandler
  else self

end Window

inductive Event where
  /-- Application code that runs outside the handlers of the window. -/
  | application (calls : List Call)
  | configure (configure : Configure) (tick : Tick)
  | layerConfigure (resize : Option (List Call)) (tick : Tick)
  /-- A change of scale, or a resize the application asked for. -/
  | resized (changed : Option (List Call))
  | frameCallback (tick : Tick)
  /-- The shared ping; the ticks of other windows come before and after the one of this window. -/
  | ping (before : List Call) (tick : Tick) (after : List Call)
  | pinged
  | retryTimer (tick : Tick)
  | input (input : Input)
  | ime (input : ImeInput) (calls : List Call)
  | imeArea (calls : List Call)
  | toplevelClose (question : List Call) (answer : Bool) (children callback : List Call)
  | toplevelDecoration (calls : List Call)
  /- The following reach a closed window as well until the client drops it: the keyboard or the pointer
  leaves it after a last input, and the desktop's settings change. -/
  | focused (calls : List Call)
  | hovered (calls : List Call)
  | appearance (calls : List Call)
  | buttonLayout (calls : List Call)
  | close (children callback : List Call)
deriving DecidableEq

namespace Window

def new (callbacks : Handler → Bool) : Window := { callbacks }

/-- `get_window` finds open windows only, so the compositor's events do not reach a closed one. -/
def dispatch (self : Window) (handle : Window → Window) : Window :=
  if self.isClosed then self else handle self

def step (self : Window) : Event → Window
  | .application calls => self.calls calls
  | .configure configure tick => self.dispatch fun self => self.handleXdgSurfaceEvent configure tick
  | .layerConfigure resize tick => self.dispatch fun self => self.handleLayersurfaceEvent resize tick
  | .resized changed => (self.setSizeAndScale changed).requestRedraw
  | .frameCallback tick => self.dispatch fun self => self.frameCallbackFired tick
  | .ping before tick after =>
    (({ self with pingPending := false }.calls before).scheduledFrameFired tick).calls after
  | .pinged => { self with pingPending := true }
  | .retryTimer tick =>
    { self with retryTimers := self.retryTimers - 1 }.dispatch fun self => self.retryTimerFired tick
  | .input input => self.handleInput input
  | .ime input calls => self.handleIme input calls
  | .imeArea calls => self.getImeArea calls
  | .toplevelClose question answer children callback =>
    self.dispatch fun self => self.handleToplevelClose question answer children callback
  | .toplevelDecoration calls => self.dispatch fun self => self.handleToplevelDecorationEvent calls
  | .focused calls => self.setFocused calls
  | .hovered calls => self.setHovered calls
  | .appearance calls => self.setAppearance calls
  | .buttonLayout calls => self.setButtonLayout calls
  | .close children callback => self.close children callback

def run (self : Window) (events : List Event) : Window := events.foldl step self

/-! ## Calls -/

theorem isClosed_eq_true {self : Window} : self.isClosed = true ↔ self.frameLoop = .closed := by
  simp [Window.isClosed]

theorem isClosed_eq_false {self : Window} : self.isClosed = false ↔ self.frameLoop ≠ .closed := by
  simp [Window.isClosed]

theorem isConfigured_eq_false {self : Window} :
    self.isConfigured = false ↔ self.frameLoop = .unconfigured ∨ self.frameLoop = .closed := by
  simp only [Window.isConfigured, Bool.and_eq_false_iff, decide_eq_false_iff_not, not_not]

theorem isClosed_call {self : Window} (call : Call) (closed : self.isClosed = true) :
    (self.call call).isClosed = true := by
  have loop := isClosed_eq_true.mp closed
  cases call with
  | draw outcome => simp [Window.isClosed, Window.call, Window.draw, admitDraw, setRedrawRequested, loop]
  | requestRedraw =>
    simp [Window.isClosed, Window.call, Window.requestRedraw, Window.scheduleFrame, setRedrawRequested, loop]
  | scheduleFrame => simp [Window.isClosed, Window.call, Window.scheduleFrame, loop]
  | close => rfl
  | _ => exact closed

end Window

end Pinrail.Wayland
