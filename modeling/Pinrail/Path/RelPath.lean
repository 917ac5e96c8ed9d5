import Pinrail.Lib.Rust

/-!
# Relative paths

`RelPath::new` of `rel_path.rs` with `is_absolute` of `path.rs`. A string is the list of its
characters: the code cuts strings only next to ASCII characters.
-/

namespace Pinrail

def startsWith (self : Str) (c : Char) : Bool := self.head? == some c

inductive PathStyle where
  | unix
  | windows
deriving DecidableEq

inductive Cow (α : Type) where
  | borrowed (value : α)
  | owned (value : α)
deriving DecidableEq

def Cow.asRef {α : Type} : Cow α → α
  | .borrowed value => value
  | .owned value => value

inductive PathError where
  /-- "absolute path not allowed". -/
  | absolute (path : Str)
  /-- "path is not relative". -/
  | notRelative (path : Str)
deriving DecidableEq

namespace PathStyle

def separatorsCh : PathStyle → List Char
  | .unix => ['/']
  | .windows => ['\\', '/']

/-- The prefixes that `RelPath::new` removes, all of two characters. -/
def prefixes : PathStyle → List Str
  | .unix => [['.', '/']]
  | .windows => [['.', '/'], ['.', '\\']]

/-- The suffixes that `RelPath::new` removes. -/
def suffixes : PathStyle → List Char
  | .unix => ['/']
  | .windows => ['/', '\\']

end PathStyle

def followsDrive : Str → Bool
  | ':' :: path => startsWith path '/' || startsWith path '\\'
  | _ => false

def isAbsolute (pathLike : Str) (style : PathStyle) : Bool :=
  startsWith pathLike '/' || style == .windows && (startsWith pathLike '\\' ||
        pathLike.head?.any Char.isAlpha && followsDrive (pathLike.drop 1))

namespace RelPathBuf

def pop (self : Str) : Bool × Str :=
  if '/' ∈ self then (true, ((self.reverse.dropWhile (· ≠ '/')).drop 1).reverse)
  else if !self.isEmpty then (true, [])
  else (false, self)

def push (self path : Str) : Str :=
  if path.isEmpty then self
  else (if self.isEmpty then self else self ++ ['/']) ++ path

end RelPathBuf

namespace RelPath

/-- The components that `RelPathComponents` yields of `current ++ rest`, the slashes of `current`
being used up. -/
def componentsFrom (current : Str) : Str → List Str
  | [] => if current.isEmpty then [] else [current]
  | c :: rest =>
    if c = '/' then current :: componentsFrom [] rest else componentsFrom (current ++ [c]) rest

def components (self : Str) : List Str := componentsFrom [] self

/-- The first loop of `new`. -/
def trimStart (style : PathStyle) : Str → Str
  | c :: d :: rest =>
    if style.prefixes.any (·.isPrefixOf (c :: d :: rest)) then trimStart style rest
    else c :: d :: rest
  | path => path

/-- The second loop of `new` on the reversed path. -/
def trimReversed (style : PathStyle) : Str → Str
  | c :: d :: rest =>
    if c ∈ style.suffixes then trimReversed style (d :: rest) else c :: d :: rest
  | path => path

def trim (style : PathStyle) (path : Str) : Str :=
  (trimReversed style (trimStart style path).reverse).reverse

/-- One round of the loop that resolves `.` and `..`. -/
def normalizeStep (result normalized component : Str) : Except PathError Str :=
  if component = [] then .ok normalized
  else if component = ['.'] then .ok normalized
  else if component = ['.', '.'] then
    match RelPathBuf.pop normalized with
    | (true, normalized) => .ok normalized
    | (false, _) => .error (.notRelative result)
  else .ok (RelPathBuf.push normalized component)

def new (path : Str) (style : PathStyle) : Except PathError (Cow Str) := do
  let path := trim style path
  if isAbsolute path style then
    throw (.absolute path)
  let result : Cow Str :=
    if style = .windows ∧ '\\' ∈ path then
      .owned (path.map fun c => if c = '\\' then '/' else c)
    else .borrowed path
  if (components result.asRef).any fun component =>
      component == [] || component == ['.'] || component == ['.', '.'] then
    return .owned (← (components result.asRef).foldlM (normalizeStep result.asRef) [])
  else
    return result

def display (self : Str) (style : PathStyle) : Cow Str :=
  match style with
  | .unix => .borrowed self
  | .windows =>
    if '/' ∈ self then .owned (self.map fun c => if c = '/' then '\\' else c) else .borrowed self

end RelPath
end Pinrail
