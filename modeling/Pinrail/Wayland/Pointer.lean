import Mathlib.Logic.Function.Basic
import Mathlib.Tactic.Common

/-!
# Pointer events of the Wayland client

The Enter, Leave, Motion and Button arms of the pointer dispatch. Application code runs inside
several of them. Input and hover callbacks may block, unblock and close windows; the callbacks of the
input method may also change what the client remembers of the seat. Positions and modifiers are
opaque, cursor shapes are left out. An unwrap that fails leaves the handler, and the state says so.
-/

namespace Pinrail.Wayland

inductive MouseButton where
  | left
  | right
  | middle
  | navigateBack
  | navigateForward
deriving DecidableEq

def linuxButtonToGpui (button : Nat) : Option MouseButton :=
  match button with
  | 0x110 => some .left
  | 0x111 => some .right
  | 0x112 => some .middle
  | 0x116 | 0x113 => some .navigateBack
  | 0x115 | 0x114 => some .navigateForward
  | _ => none

inductive ButtonState where
  | released
  | pressed
  | unknown
deriving DecidableEq

inductive SerialKind where
  | mouseEnter
  | mousePress
deriving DecidableEq

structure SerialTracker where
  serials : SerialKind → Nat
  selectionSerial : Option Nat

def SerialTracker.update (self : SerialTracker) (kind : SerialKind) (value : Nat) : SerialTracker where
  serials := Function.update self.serials kind value
  selectionSerial := if kind = .mousePress then some value else self.selectionSerial

structure Status where
  known : Bool
  closed : Bool
  childBlocks : Bool
deriving DecidableEq

/-- `DOUBLE_CLICK_INTERVAL`, in milliseconds. -/
def doubleClickInterval : Nat := 400

section Pointer

variable {W P M : Type}

inductive PlatformInput (P M : Type) where
  | mouseMove (position : P) (pressedButton : Option MouseButton) (modifiers : M)
  | mouseExited (position : P) (pressedButton : Option MouseButton) (modifiers : M)
  | mouseDown (button : MouseButton) (position : P) (modifiers : M) (clickCount : Nat) (firstMouse : Bool)
  | mouseUp (button : MouseButton) (position : P) (modifiers : M) (clickCount : Nat)
deriving DecidableEq

structure ClickState (P : Type) where
  lastMouseButton : Option MouseButton
  lastClick : Nat
  lastLocation : P
  currentCount : Nat
deriving DecidableEq

structure Client (W P M : Type) where
  mouseFocusedWindow : Option W
  keyboardFocusedWindow : Option W
  mouseLocation : Option P
  buttonPressed : Option MouseButton
  click : ClickState P
  enterToken : Bool
  serialTracker : SerialTracker
  modifiers : M
  composing : Bool
  textInput : Bool
  preEditText : Option String
  composeState : Bool
  status : W → Status
  delivered : List (W × PlatformInput P M)
  /-- An unwrap has failed, which ends the program; the runs that go on behind it are runs too many. -/
  panicked : Bool

/-- What application code leaves that ran inside a callback of the input method, or between two
pointer events. -/
structure Reentry (W P : Type) where
  mouseFocusedWindow : Option W
  keyboardFocusedWindow : Option W
  mouseLocation : Option P
  buttonPressed : Option MouseButton
  enterToken : Bool
  composing : Bool
  preEditText : Option String
  status : W → Status

/-- The functions to `W → Status` are what the callbacks of an event make of the windows. -/
inductive PointerEvent (W P : Type) where
  | enter (serial : Nat) (surface : W) (position : P) (hovered delivered : W → Status)
  | leave (delivered hovered : W → Status)
  | motion (position : P) (delivered : W → Status)
  | button (serial code : Nat) (state : ButtonState) (ime : Reentry W P) (now : Nat) (delivered : W → Status)
  | other (change : Reentry W P)

/-- `ime_target`. -/
def imeTarget [DecidableEq W] (keyboard : Option W) (pointer : W) : Option W :=
  keyboard.filter fun keyboard => keyboard = pointer

/-- `press_position`. -/
def pressPosition [DecidableEq W] (original : W) (current : Option W) (position : Option P)
    (acceptsInput : W → Bool) : Option P :=
  match current with
  | none => none
  | some current =>
    if original ≠ current ∨ acceptsInput original = false then none else position

namespace Client

def isBlocked (self : Client W P M) (window : W) : Bool :=
  (self.status window).closed || (self.status window).childBlocks

def getWindow (self : Client W P M) (surface : W) : Option W :=
  if (self.status surface).known && !(self.status surface).closed then some surface else none

def reenter (self : Client W P M) (change : Reentry W P) : Client W P M :=
  { self with
    mouseFocusedWindow := change.mouseFocusedWindow
    keyboardFocusedWindow := change.keyboardFocusedWindow
    mouseLocation := change.mouseLocation
    buttonPressed := change.buttonPressed
    enterToken := change.enterToken
    composing := change.composing
    preEditText := change.preEditText
    status := change.status }

/-- `handle_input` of a window: a blocked one does not get to see the input. -/
def handleInput (self : Client W P M) (window : W) (input : PlatformInput P M)
    (after : W → Status) : Client W P M :=
  if self.isBlocked window then self
  else { self with delivered := self.delivered ++ [(window, input)], status := after }

def setHovered (self : Client W P M) (after : W → Status) : Client W P M :=
  { self with status := after }

def pointerEnter (self : Client W P M) (serial : Nat) (surface : W) (position : P)
    (hovered delivered : W → Status) : Client W P M :=
  let self := { self with
    serialTracker := self.serialTracker.update .mouseEnter serial
    mouseLocation := some position
    buttonPressed := none }
  match self.getWindow surface with
  | none => self
  | some window =>
    let self := { self with mouseFocusedWindow := some window, enterToken := false }
    (self.setHovered hovered).handleInput window (.mouseMove position none self.modifiers) delivered

def pointerLeave (self : Client W P M) (delivered hovered : W → Status) : Client W P M :=
  match self.mouseFocusedWindow, self.mouseLocation with
  | none, _ => self
  | some _, none => { self with panicked := true }
  | some window, some position =>
    let input := .mouseExited position self.buttonPressed self.modifiers
    let self :=
      { self with mouseFocusedWindow := none, mouseLocation := none, buttonPressed := none }
    (self.handleInput window input delivered).setHovered hovered

section HandleInput

variable (self : Client W P M) (window : W) (input : PlatformInput P M) (after : W → Status)

theorem buttonPressed_handleInput : (self.handleInput window input after).buttonPressed = self.buttonPressed := by
  unfold handleInput
  split <;> rfl

theorem click_handleInput : (self.handleInput window input after).click = self.click := by
  unfold handleInput
  split <;> rfl

theorem serialTracker_handleInput : (self.handleInput window input after).serialTracker = self.serialTracker := by
  unfold handleInput
  split <;> rfl

theorem delivered_handleInput : (self.handleInput window input after).delivered =
    self.delivered ++ if self.isBlocked window then [] else [(window, input)] := by
  unfold handleInput
  split <;> simp

end HandleInput

def IsMouseDown (input : PlatformInput P M) : Prop :=
  ∃ button position modifiers clickCount firstMouse, input = .mouseDown button position modifiers clickCount firstMouse

structure Passes (before after : Client W P M) : Prop where
  click : after.click = before.click
  serial : after.serialTracker.serials .mousePress = before.serialTracker.serials .mousePress
  delivered : ∃ news, after.delivered = before.delivered ++ news ∧ ∀ entry ∈ news, ¬ IsMouseDown entry.2

theorem Passes.of_eq {before after : Client W P M} (click : after.click = before.click)
    (serial : after.serialTracker.serials .mousePress = before.serialTracker.serials .mousePress)
    (delivered : after.delivered = before.delivered) : Passes before after :=
  ⟨click, serial, [], by simp [delivered], by simp⟩

theorem Passes.handleInput {before self : Client W P M} (passes : Passes before self) (window : W)
    {input : PlatformInput P M} (other : ¬ IsMouseDown input) (after : W → Status) :
    Passes before (self.handleInput window input after) := by
  obtain ⟨click, serial, news, delivered, others⟩ := passes
  refine ⟨(click_handleInput _ _ _ _).trans click, ?_, ?_⟩
  · rw [serialTracker_handleInput, serial]
  · rw [delivered_handleInput, delivered, List.append_assoc]
    refine ⟨_, rfl, ?_⟩
    intro entry member
    rcases List.mem_append.mp member with old | new
    · exact others entry old
    · split at new
      · simp at new
      · rw [List.mem_singleton.mp new]
        exact other

theorem Passes.setHovered {before self : Client W P M} (passes : Passes before self)
    (after : W → Status) : Passes before (self.setHovered after) :=
  ⟨passes.click, passes.serial, passes.delivered⟩

theorem passes_pointerEnter (self : Client W P M) (serial : Nat) (surface : W) (position : P)
    (hovered status : W → Status) : Passes self (self.pointerEnter serial surface position hovered status) := by
  unfold pointerEnter
  dsimp only
  split
  · exact .of_eq rfl (by simp [SerialTracker.update]) rfl
  · refine Passes.handleInput (Passes.setHovered ?_ hovered) _ (by simp [IsMouseDown]) _
    exact .of_eq rfl (by simp [SerialTracker.update]) rfl

theorem passes_pointerLeave (self : Client W P M) (status hovered : W → Status) :
    Passes self (self.pointerLeave status hovered) := by
  unfold pointerLeave
  dsimp only
  split
  · exact .of_eq rfl rfl rfl
  · exact .of_eq rfl rfl rfl
  · refine (Passes.handleInput ?_ _ (by simp [IsMouseDown]) _).setHovered hovered
    exact .of_eq rfl rfl rfl

variable [DecidableEq W]

def pointerMotion (self : Client W P M) (position : P) (delivered : W → Status) : Client W P M :=
  match self.mouseFocusedWindow with
  | none => self
  | some window =>
    let self := { self with mouseLocation := some position }
    let self :=
      if self.keyboardFocusedWindow = some window then { self with enterToken := false } else self
    self.handleInput window (.mouseMove position self.buttonPressed self.modifiers) delivered

/-- End a composition in the window that is pressed: resetting the input method and inserting the
pending text run application code. -/
def endComposition (self : Client W P M) (original : W) (ime : Reentry W P) : Client W P M :=
  match imeTarget self.keyboardFocusedWindow original with
  | none => self
  | some _ =>
    if self.composing && self.textInput then self.reenter ime
    else
      match self.preEditText, self.composeState with
      | some _, true => { self with preEditText := none }.reenter ime
      | _, _ => { self with preEditText := none }

def recordClick (isWithinClickDistance : P → P → Bool) (self : Client W P M) (button : MouseButton)
    (position : P) (now : Nat) : Client W P M :=
  let repeated := now - self.click.lastClick < doubleClickInterval ∧
    self.click.lastMouseButton = some button ∧
    isWithinClickDistance self.click.lastLocation position = true
  { self with
    click :=
      { currentCount := if repeated then self.click.currentCount + 1 else 1
        lastClick := now
        lastMouseButton := some button
        lastLocation := position }
    buttonPressed := some button }

def buttonPress (isWithinClickDistance : P → P → Bool) (self : Client W P M) (button : MouseButton)
    (ime : Reentry W P) (now : Nat) (delivered : W → Status) : Client W P M :=
  match self.mouseFocusedWindow with
  | none => self
  | some original =>
    if self.isBlocked original then self
    else
      let self := self.endComposition original ime
      match pressPosition original self.mouseFocusedWindow self.mouseLocation
        (fun window => !self.isBlocked window) with
      | none => self
      | some position =>
        let self := self.recordClick isWithinClickDistance button position now
        let input := .mouseDown button position self.modifiers self.click.currentCount self.enterToken
        { self with enterToken := false }.handleInput original input delivered

def buttonRelease (self : Client W P M) (button : MouseButton) (delivered : W → Status) :
    Client W P M :=
  let self := { self with buttonPressed := none }
  match self.mouseFocusedWindow, self.mouseLocation with
  | none, _ => self
  | some _, none => { self with panicked := true }
  | some window, some position =>
    self.handleInput window (.mouseUp button position self.modifiers self.click.currentCount) delivered

def pointerButton (isWithinClickDistance : P → P → Bool) (self : Client W P M) (serial code : Nat)
    (state : ButtonState) (ime : Reentry W P) (now : Nat) (delivered : W → Status) : Client W P M :=
  -- Only the serial of a press is of use to a later request.
  let self :=
    if state = .pressed then
      { self with serialTracker := self.serialTracker.update .mousePress serial }
    else self
  match linuxButtonToGpui code with
  | none => self
  | some button =>
    match state with
    | .pressed => self.buttonPress isWithinClickDistance button ime now delivered
    | .released => self.buttonRelease button delivered
    | .unknown => self

def step (isWithinClickDistance : P → P → Bool) (self : Client W P M) :
    PointerEvent W P → Client W P M
  | .enter serial surface position hovered delivered =>
    self.pointerEnter serial surface position hovered delivered
  | .leave delivered hovered => self.pointerLeave delivered hovered
  | .motion position delivered => self.pointerMotion position delivered
  | .button serial code state ime now delivered =>
    self.pointerButton isWithinClickDistance serial code state ime now delivered
  | .other change => self.reenter change

def run (isWithinClickDistance : P → P → Bool) (self : Client W P M)
    (events : List (PointerEvent W P)) : Client W P M :=
  events.foldl (step isWithinClickDistance) self

/-! ## What a pointer event may do -/

def afterIme (self : Client W P M) (ime : Reentry W P) : Client W P M :=
  match self.mouseFocusedWindow with
  | none => self
  | some original => if self.isBlocked original then self else self.endComposition original ime

/-- A window is pressed at a position: it had the pointer when the event came, it still has it after
the callbacks, and it takes input. -/
structure Admits (client : Client W P M) (ime : Reentry W P) (window : W) (position : P) : Prop where
  focused : client.mouseFocusedWindow = some window
  unblocked : client.isBlocked window = false
  stillFocused : (client.afterIme ime).mouseFocusedWindow = some window
  stillUnblocked : (client.afterIme ime).isBlocked window = false
  located : (client.afterIme ime).mouseLocation = some position

structure Contract (isWithinClickDistance : P → P → Bool) (before : Client W P M)
    (event : PointerEvent W P) (after : Client W P M) : Prop where
  /-- A recognised release clears the pressed button, and only the window under the pointer, if it
  is not blocked, hears of it. -/
  released : ∀ serial code ime now status button,
    event = .button serial code .released ime now status → linuxButtonToGpui code = some button →
    after.buttonPressed = none ∧ ∃ news, after.delivered = before.delivered ++ news ∧
      ∀ entry ∈ news, before.mouseFocusedWindow = some entry.1 ∧ before.isBlocked entry.1 = false
  /-- A press that a window admits is recorded and delivered to that window. -/
  admitted : ∀ serial code ime now status button window position,
    event = .button serial code .pressed ime now status → linuxButtonToGpui code = some button →
    before.Admits ime window position →
    after.buttonPressed = some button ∧
      after.click = ((before.afterIme ime).recordClick isWithinClickDistance button position now).click ∧
      after.delivered = before.delivered ++ [(window, .mouseDown button position before.modifiers
        after.click.currentCount (before.afterIme ime).enterToken)]
  /-- Any other press leaves no trace but that of the callbacks. -/
  refused : ∀ serial code ime now status button,
    event = .button serial code .pressed ime now status → linuxButtonToGpui code = some button →
    (∀ window position, ¬ before.Admits ime window position) →
    after.buttonPressed = (before.afterIme ime).buttonPressed ∧ after.click = before.click ∧
      after.delivered = before.delivered
  unrecognised : ∀ serial code state ime now status,
    event = .button serial code state ime now status → linuxButtonToGpui code = none →
    after.buttonPressed = before.buttonPressed ∧ after.click = before.click ∧ after.delivered = before.delivered
  /-- No other event is heard as a press or counted as a click. -/
  others : (∀ serial code ime now status, event ≠ .button serial code .pressed ime now status) →
    after.click = before.click ∧ ∃ news, after.delivered = before.delivered ++ news ∧
      ∀ entry ∈ news, ¬ IsMouseDown entry.2
  /-- The serial of the last press changes on a press only, to the serial of that press. -/
  serial : after.serialTracker.serials .mousePress ≠ before.serialTracker.serials .mousePress → ∃ code ime now status,
      event = .button (after.serialTracker.serials .mousePress) code .pressed ime now status

/-! ## Each handler -/

theorem afterIme_keeps (self : Client W P M) (ime : Reentry W P) : (self.afterIme ime).click = self.click ∧
    (self.afterIme ime).serialTracker = self.serialTracker ∧ (self.afterIme ime).modifiers = self.modifiers ∧
    (self.afterIme ime).delivered = self.delivered := by
  unfold afterIme endComposition
  repeat' split
  all_goals exact ⟨rfl, rfl, rfl, rfl⟩

theorem pressPosition_eq_some {original : W} {current : Option W} {position : Option P} {acceptsInput : W → Bool}
    {found : P} : pressPosition original current position acceptsInput = some found ↔ current = some original ∧
    acceptsInput original = true ∧ position = some found := by
  unfold pressPosition
  split
  · simp
  · split
    · rename_i rejected
      constructor
      · intro impossible
        cases impossible
      · rintro ⟨same, accepts, -⟩
        cases same
        simp [accepts] at rejected
    · rename_i accepted
      simp only [not_or, not_not, Bool.not_eq_false] at accepted
      obtain ⟨rfl, accepts⟩ := accepted
      simp [accepts]

theorem buttonPress_admitted {isWithinClickDistance : P → P → Bool} {self : Client W P M}
    {button : MouseButton} {ime : Reentry W P} {now : Nat} {status : W → Status} {window : W}
    {position : P} (admits : self.Admits ime window position) :
    self.buttonPress isWithinClickDistance button ime now status =
      let recorded := (self.afterIme ime).recordClick isWithinClickDistance button position now
      { recorded with enterToken := false }.handleInput window
        (.mouseDown button position self.modifiers recorded.click.currentCount
          (self.afterIme ime).enterToken) status := by
  obtain ⟨focused, unblocked, stillFocused, stillUnblocked, located⟩ := admits
  have ended : self.afterIme ime = self.endComposition window ime := by
    simp [afterIme, focused, unblocked]
  have kept := (afterIme_keeps self ime).2.2.1
  rw [ended] at stillFocused stillUnblocked located kept ⊢
  have found : pressPosition window (self.endComposition window ime).mouseFocusedWindow
      (self.endComposition window ime).mouseLocation
      (fun other => !(self.endComposition window ime).isBlocked other) = some position := by
    rw [pressPosition_eq_some]
    exact ⟨stillFocused, by simp [stillUnblocked], located⟩
  simp only [buttonPress, focused, unblocked, Bool.false_eq_true, if_false, found]
  simp [recordClick, kept]

theorem buttonPress_refused {isWithinClickDistance : P → P → Bool} {self : Client W P M}
    {button : MouseButton} {ime : Reentry W P} {now : Nat} {status : W → Status}
    (refused : ∀ window position, ¬ self.Admits ime window position) :
    self.buttonPress isWithinClickDistance button ime now status = self.afterIme ime := by
  unfold buttonPress afterIme
  split
  · rfl
  · rename_i original focused
    split
    · rfl
    · rename_i unblocked
      have ended : self.afterIme ime = self.endComposition original ime := by
        simp [afterIme, focused, unblocked]
      dsimp only
      split
      · rfl
      · rename_i position found
        obtain ⟨stillFocused, stillUnblocked, located⟩ := pressPosition_eq_some.mp found
        refine absurd ⟨focused, by simpa using unblocked, ?_, ?_, ?_⟩ (refused original position)
        · rw [ended, stillFocused]
        · rw [ended]
          simpa using stillUnblocked
        · rw [ended, located]

/-! ## Every event -/

def track (self : Client W P M) (serial : Nat) : Client W P M :=
  { self with serialTracker := self.serialTracker.update .mousePress serial }

theorem afterIme_track (self : Client W P M) (serial : Nat) (ime : Reentry W P) : (self.track serial).afterIme ime =
      { self.afterIme ime with serialTracker := (self.track serial).serialTracker } := by
  rcases self with ⟨focused, keyboard, location, pressed, click, token, tracker, modifiers, composing,
    textInput, preEdit, compose, status, delivered⟩
  cases focused with
  | none => rfl
  | some original =>
    cases blocked : (status original).closed || (status original).childBlocks with
    | true => simp only [afterIme, track, isBlocked, blocked, if_true]
    | false =>
      cases target : imeTarget keyboard original with
      | none =>
        simp only [afterIme, track, isBlocked, blocked, Bool.false_eq_true, if_false, endComposition, target]
      | some window =>
        cases composes : composing && textInput <;> cases preEdit <;> cases compose <;>
          simp only [afterIme, track, isBlocked, blocked, Bool.false_eq_true, if_false, if_true,
            endComposition, target, composes, reenter]

theorem admits_track {self : Client W P M} {serial : Nat} {ime : Reentry W P} {window : W} {position : P} :
    (self.track serial).Admits ime window position ↔ self.Admits ime window position := by
  have after := afterIme_track self serial ime
  constructor
  · rintro ⟨focused, unblocked, stillFocused, stillUnblocked, located⟩
    rw [after] at stillFocused stillUnblocked located
    exact ⟨focused, unblocked, stillFocused, stillUnblocked, located⟩
  · rintro ⟨focused, unblocked, stillFocused, stillUnblocked, located⟩
    refine ⟨focused, unblocked, ?_, ?_, ?_⟩ <;> rw [after]
    · exact stillFocused
    · exact stillUnblocked
    · exact located

theorem step_press (isWithinClickDistance : P → P → Bool) (self : Client W P M)
    {serial code : Nat} {ime : Reentry W P} {now : Nat} {status : W → Status} {button : MouseButton}
    (recognised : linuxButtonToGpui code = some button) :
    self.step isWithinClickDistance (.button serial code .pressed ime now status) =
      (self.track serial).buttonPress isWithinClickDistance button ime now status := by
  simp [step, pointerButton, recognised, track]

theorem step_release (isWithinClickDistance : P → P → Bool) (self : Client W P M)
    {serial code : Nat} {ime : Reentry W P} {now : Nat} {status : W → Status} {button : MouseButton}
    (recognised : linuxButtonToGpui code = some button) :
    self.step isWithinClickDistance (.button serial code .released ime now status) =
      self.buttonRelease button status := by
  simp [step, pointerButton, recognised]

omit [DecidableEq W] in
theorem buttonRelease_spec (self : Client W P M) (button : MouseButton) (status : W → Status) :
    (self.buttonRelease button status).buttonPressed = none ∧ (self.buttonRelease button status).click = self.click ∧
    (self.buttonRelease button status).serialTracker = self.serialTracker ∧ ∃ news,
    (self.buttonRelease button status).delivered = self.delivered ++ news ∧ ∀ entry ∈ news,
    self.mouseFocusedWindow = some entry.1 ∧ self.isBlocked entry.1 = false ∧ ¬ IsMouseDown entry.2 := by
  unfold buttonRelease
  dsimp only
  split
  · exact ⟨rfl, rfl, rfl, [], by simp, by simp⟩
  · exact ⟨rfl, rfl, rfl, [], by simp, by simp⟩
  · rename_i window position focused located
    refine ⟨buttonPressed_handleInput _ _ _ _, click_handleInput _ _ _ _,
      serialTracker_handleInput _ _ _ _, _, delivered_handleInput _ _ _ _, ?_⟩
    intro entry member
    split at member
    · simp at member
    · rename_i unblocked
      obtain rfl := List.mem_singleton.mp member
      refine ⟨focused, eq_false_of_ne_true unblocked, ?_⟩
      rintro ⟨_, _, _, _, _, impossible⟩
      cases impossible

theorem passes_pointerMotion (self : Client W P M) (position : P) (status : W → Status) :
    Passes self (self.pointerMotion position status) := by
  unfold pointerMotion
  dsimp only
  split
  · exact .of_eq rfl rfl rfl
  · refine Passes.handleInput ?_ _ (by simp [IsMouseDown]) _
    split <;> exact .of_eq rfl rfl rfl

theorem Passes.contract {isWithinClickDistance : P → P → Bool} {before after : Client W P M}
    {event : PointerEvent W P} (passes : Passes before after)
    (other : ∀ serial code state ime now status, event ≠ .button serial code state ime now status) :
    Contract isWithinClickDistance before event after where
  released _ _ _ _ _ _ same := absurd same (other _ _ _ _ _ _)
  admitted _ _ _ _ _ _ _ _ same := absurd same (other _ _ _ _ _ _)
  refused _ _ _ _ _ _ same := absurd same (other _ _ _ _ _ _)
  unrecognised _ _ _ _ _ _ same := absurd same (other _ _ _ _ _ _)
  others _ := ⟨passes.click, passes.delivered⟩
  serial changed := absurd passes.serial changed

theorem idle_contract (isWithinClickDistance : P → P → Bool) (client : Client W P M) {event : PointerEvent W P}
    (unreleased : ∀ serial code ime now status button,
      event = .button serial code .released ime now status → linuxButtonToGpui code ≠ some button)
    (unpressed : ∀ serial code ime now status, event ≠ .button serial code .pressed ime now status) :
    Contract isWithinClickDistance client event client where
  released _ _ _ _ _ _ same recognised := absurd recognised (unreleased _ _ _ _ _ _ same)
  admitted _ _ _ _ _ _ _ _ same := absurd same (unpressed _ _ _ _ _)
  refused _ _ _ _ _ _ same := absurd same (unpressed _ _ _ _ _)
  unrecognised _ _ _ _ _ _ _ _ := ⟨rfl, rfl, rfl⟩
  others _ := ⟨rfl, [], by simp, by simp⟩
  serial changed := absurd rfl changed

theorem released_contract (isWithinClickDistance : P → P → Bool) (before : Client W P M) (serial code : Nat)
    (ime : Reentry W P) (now : Nat) (status : W → Status) :
    Contract isWithinClickDistance before (.button serial code .released ime now status)
    (before.step isWithinClickDistance (.button serial code .released ime now status)) := by
  cases recognised : linuxButtonToGpui code with
  | none =>
    have same : before.step isWithinClickDistance (.button serial code .released ime now status) =
        before := by
      simp [step, pointerButton, recognised]
    rw [same]
    refine idle_contract _ before ?_ (by simp)
    rintro _ _ _ _ _ button ⟨⟩ found
    simp [recognised] at found
  | some button =>
    rw [step_release _ _ recognised]
    obtain ⟨cleared, click, tracker, news, delivered, heard⟩ := buttonRelease_spec before button status
    constructor
    · intros
      exact ⟨cleared, news, delivered, fun entry member =>
        ⟨(heard entry member).1, (heard entry member).2.1⟩⟩
    · rintro _ _ _ _ _ _ _ _ ⟨⟩
    · rintro _ _ _ _ _ _ ⟨⟩
    · rintro _ _ _ _ _ _ ⟨⟩ missing
      simp [recognised] at missing
    · intro _
      exact ⟨click, news, delivered, fun entry member => (heard entry member).2.2⟩
    · intro changed
      exact absurd (by rw [tracker]) changed

theorem serial_buttonPress (isWithinClickDistance : P → P → Bool) (self : Client W P M)
    (button : MouseButton) (ime : Reentry W P) (now : Nat) (status : W → Status) :
    (self.buttonPress isWithinClickDistance button ime now status).serialTracker = self.serialTracker := by
  by_cases admitted : ∃ window position, self.Admits ime window position
  · obtain ⟨window, position, admits⟩ := admitted
    rw [buttonPress_admitted admits]
    exact (serialTracker_handleInput _ _ _ _).trans (afterIme_keeps self ime).2.1
  · rw [buttonPress_refused (by simpa using admitted)]
    exact (afterIme_keeps self ime).2.1

theorem pressed_contract (isWithinClickDistance : P → P → Bool) (before : Client W P M) (serial code : Nat)
    (ime : Reentry W P) (now : Nat) (status : W → Status) :
    Contract isWithinClickDistance before (.button serial code .pressed ime now status)
    (before.step isWithinClickDistance (.button serial code .pressed ime now status)) := by
  have tracked : (before.step isWithinClickDistance
      (.button serial code .pressed ime now status)).serialTracker.serials .mousePress = serial := by
    cases recognised : linuxButtonToGpui code with
    | none => simp [step, pointerButton, recognised, SerialTracker.update]
    | some button =>
      rw [step_press _ _ recognised, serial_buttonPress]
      simp [track, SerialTracker.update]
  constructor
  · rintro _ _ _ _ _ _ ⟨⟩
  · rintro _ _ _ _ _ button window position ⟨⟩ recognised admits
    have kept := afterIme_keeps before ime
    rw [step_press _ _ recognised, buttonPress_admitted (admits_track.mpr admits), afterIme_track]
    refine ⟨buttonPressed_handleInput _ _ _ _, click_handleInput _ _ _ _, ?_⟩
    rw [delivered_handleInput, click_handleInput]
    have unblocked : isBlocked { (({ before.afterIme ime with
        serialTracker := (before.track serial).serialTracker } : Client W P M).recordClick
          isWithinClickDistance button position now) with enterToken := false } window = false :=
      admits.stillUnblocked
    simp only [unblocked, Bool.false_eq_true, if_false]
    exact congrArg (· ++ _) kept.2.2.2
  · rintro _ _ _ _ _ button ⟨⟩ recognised refused
    have kept := afterIme_keeps before ime
    rw [step_press _ _ recognised, buttonPress_refused, afterIme_track]
    · exact ⟨rfl, kept.1, kept.2.2.2⟩
    · intro window position admits
      exact refused window position (admits_track.mp admits)
  · rintro _ _ _ _ _ _ ⟨⟩ missing
    simp [step, pointerButton, missing]
  · intro other
    exact absurd rfl (other serial code ime now status)
  · intro _
    exact ⟨code, ime, now, status, by rw [tracked]⟩

theorem step_contract (isWithinClickDistance : P → P → Bool) (before : Client W P M) (event : PointerEvent W P) :
    Contract isWithinClickDistance before event (before.step isWithinClickDistance event) := by
  cases event with
  | enter serial surface position hovered status =>
    exact (passes_pointerEnter before serial surface position hovered status).contract (by simp)
  | leave status hovered => exact (passes_pointerLeave before status hovered).contract (by simp)
  | motion position status => exact (passes_pointerMotion before position status).contract (by simp)
  | button serial code state ime now status =>
    cases state with
    | released => exact released_contract _ before serial code ime now status
    | pressed => exact pressed_contract _ before serial code ime now status
    | unknown =>
      have same : before.step isWithinClickDistance (.button serial code .unknown ime now status) = before := by
        cases recognised : linuxButtonToGpui code <;> simp [step, pointerButton, recognised]
      rw [same]
      exact idle_contract _ before (by simp) (by simp)
  | other change =>
    exact Passes.contract (.of_eq rfl rfl rfl) (by simp)

/-- Each event of a run keeps to what an event of its kind may do. -/
theorem pointer_contract (isWithinClickDistance : P → P → Bool) (client : Client W P M)
    (events : List (PointerEvent W P)) (event : PointerEvent W P) :
    Contract isWithinClickDistance (client.run isWithinClickDistance events) event
      (client.run isWithinClickDistance (events ++ [event])) := by
  simp only [run, List.foldl_append, List.foldl_cons, List.foldl_nil]
  exact step_contract _ _ event

end Client

end Pointer

end Pinrail.Wayland
