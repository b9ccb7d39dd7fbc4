import KineticText.Value.Arranged
import KineticText.Value.Path

/-! Messages with places to fill. -/
namespace KineticText.Template

/-- A place stands between braces: the path of its value, after an exclamation mark how that is
made a text first, and after a colon its layout. -/
structure Place where
  path : Text
  conversion : Option Char := none
  layout : Text := []
  deriving DecidableEq

inductive Piece where
  | char (c : Char)
  | place (p : Place)
  deriving DecidableEq

/-- What is wrong with the writing of a template. -/
inductive Fault where
  /-- An opening brace that nothing closes. -/
  | unclosed
  /-- An opening brace at the very end. -/
  | loneOpen
  | loneClose
  /-- An opening brace inside a path. -/
  | nestedOpen
  | missingConversion
  /-- More than a character for a conversion. -/
  | longConversion
  /-- A layout that nothing closes. -/
  | unclosedLayout
  deriving DecidableEq

/-- Why a template cannot be filled. -/
inductive Error where
  | fault (f : Fault)
  | path (f : Path.Fault)
  | unknownConversion (c : Char)
  /-- Places in the layout of a place in a layout. -/
  | tooDeep
  /-- A place with a number, or without a name. -/
  | numbered
  | unknownName (name : Text)
  | missing (m : Value.Missing)
  | layout (e : Layout.Error)
  deriving DecidableEq

def Fault.message : Fault → Text
  | unclosed => "expected '\x7d' before end of string".toList
  | loneOpen => "Single '\x7b' encountered in format string".toList
  | loneClose => "Single '\x7d' encountered in format string".toList
  | nestedOpen => "unexpected '\x7b' in field name".toList
  | missingConversion => "end of string while looking for conversion specifier".toList
  | longConversion => "expected ':' after conversion specifier".toList
  | unclosedLayout => "unmatched '\x7b' in format spec".toList

/-- What is said of an error; what is looked up and not there speaks for itself. -/
def Error.message? : Error → Option Text
  | fault f => some f.message
  | path .tooManyDigits => some "Too many decimal digits in format string".toList
  | path .emptyStep => some "Empty attribute in format string".toList
  | path .unclosedBracket => some "Missing ']' in format string".toList
  | path .afterBracket =>
    some "Only '.' or '[' may follow ']' in format field specifier".toList
  | unknownConversion c =>
    some ("Unknown conversion specifier ".toList ++ Layout.named 127 c)
  | tooDeep => some "Max string recursion exceeded".toList
  | layout e => e.message?
  | numbered | unknownName _ | missing _ => none

/-! ### Reading a template -/

/-- The length of a path: it ends at a brace, a colon or an exclamation mark outside brackets. -/
def pathLength (inBrackets : Bool) (n : Nat) : Text → Nat
  | [] => n
  | c :: s =>
    if inBrackets then pathLength (c ≠ ']') (n + 1) s
    else if ['\x7b', '\x7d', ':', '!'].contains c then n
    else pathLength (c = '[') (n + 1) s

/-- The length of a layout up to the brace that closes the place, with `depth` braces open
inside it. -/
def layoutLength? (depth n : Nat) : Text → Option Nat
  | [] => none
  | '\x7b' :: s => layoutLength? (depth + 1) (n + 1) s
  | '\x7d' :: s => if depth = 0 then some n else layoutLength? (depth - 1) (n + 1) s
  | _ :: s => layoutLength? depth (n + 1) s

/-- A place whose layout comes next, and its length, of which `n` characters come before. -/
def placeWithLayout (path : Text) (conversion : Option Char) (n : Nat) (s : Text) :
    Except Fault (Place × Nat) :=
  match layoutLength? 0 0 s with
  | some k => .ok (⟨path, conversion, s.take k⟩, n + k + 1)
  | none => .error .unclosedLayout

/-- A place after its path, and its length. -/
def placeAfter (path : Text) : Text → Except Fault (Place × Nat)
  | '\x7b' :: _ => .error .nestedOpen
  | '\x7d' :: _ => .ok (⟨path, none, []⟩, path.length + 1)
  | ':' :: s => placeWithLayout path none (path.length + 1) s
  | '!' :: c :: '\x7d' :: _ => .ok (⟨path, some c, []⟩, path.length + 3)
  | '!' :: c :: ':' :: s => placeWithLayout path (some c) (path.length + 3) s
  | '!' :: _ :: _ :: _ => .error .longConversion
  | ['!', _] => .error .unclosedLayout
  | ['!'] => .error .missingConversion
  | _ => .error .unclosed

/-- The place after an opening brace, and its length up to the closing one. -/
def readPlace (s : Text) : Except Fault (Place × Nat) :=
  let n := pathLength false 0 s
  placeAfter (s.take n) (s.drop n)

/-- The pieces of a template up to its first fault, after those in `done`, newest first. Braces
are doubled for themselves. -/
def piecesFrom (done : List Piece) : Text → List Piece × Option Fault
  | [] => (done.reverse, none)
  | '\x7b' :: '\x7b' :: s => piecesFrom (.char '\x7b' :: done) s
  | '\x7d' :: '\x7d' :: s => piecesFrom (.char '\x7d' :: done) s
  | '\x7d' :: _ => (done.reverse, some .loneClose)
  | ['\x7b'] => (done.reverse, some .loneOpen)
  | '\x7b' :: s =>
    match readPlace s with
    | .error f => (done.reverse, some f)
    | .ok (p, n) => piecesFrom (.place p :: done) (s.drop n)
  | c :: s => piecesFrom (.char c :: done) s
termination_by s => s.length
decreasing_by
  · simp only [List.length_cons]
    omega
  · simp only [List.length_cons]
    omega
  · rw [List.length_drop, List.length_cons]
    omega
  · rw [List.length_cons]
    omega

def pieces (template : Text) : List Piece × Option Fault := piecesFrom [] template

/-! ### Filling a template -/

variable (values : List (Text × Value))

/-- The value of a path. -/
def find (path : Text) : Except Error Value := do
  let p ← (Path.parse path).mapError .path
  match p.root with
  | .numbered => throw .numbered
  | .named name =>
    let some v := values.lookup name | throw (.unknownName name)
    let v ← (p.steps.foldlM Value.step v).mapError .missing
    if let some f := p.fault then throw (.path f)
    return v

/-- The null character converts nothing. -/
def convert : Option Char → Value → Except Error Value
  | none, v | some '\x00', v => .ok v
  | some 's', v => .ok (.text v.shown)
  | some 'r', v => .ok (.text v.literal)
  | some 'a', v => .ok (.text v.asciiLiteral)
  | some c, _ => .error (.unknownConversion c)

/-- What a piece comes to; `fillLayout` fills the layouts that have places. -/
def Piece.filled (fillLayout : Text → Except Error Text) : Piece → Except Error Text
  | char c => .ok [c]
  | place p => do
    let v ← convert p.conversion (← find values p.path)
    let layout ← if p.layout.contains '\x7b' then fillLayout p.layout else .ok p.layout
    (v.arranged layout).mapError .layout

/-- Fills a template; the layouts of its places are templates of one level less. -/
def fillTo : Nat → Text → Except Error Text
  | 0, _ => .error .tooDeep
  | depth + 1, template => do
    let (ps, fault) := pieces template
    let texts ← ps.mapM (Piece.filled values (fillTo depth))
    if let some f := fault then throw (.fault f)
    return texts.flatten

/-- Fills a template, whose layouts may have places too. Without values there is nothing to fill,
and braces are like other characters. -/
def fill (template : Text) : Except Error Text :=
  if values.isEmpty then .ok template else fillTo values 2 template

end KineticText.Template
