import DocOutline.RawText
import DocOutline.Text.Order

/-! Paths, and the components they spell.

A path is bytes, of which those for a slash and for a dot mean something. Paths
compare by their components: repeated slashes, a slash at the end and single dots
count for nothing, but for a single dot at the very start. The root comes before such
a dot, that before a double dot, and that before names, which compare by their
bytes. -/
namespace DocOutline

inductive Component where
  | root
  | current
  | parent
  | name (text : RawText)
  deriving DecidableEq, Repr

/-- Where kinds of components stand in the order. -/
def Component.place : Component → Nat
  | root => 0
  | current => 1
  | parent => 2
  | name _ => 3

def Component.text : Component → RawText
  | name text => text
  | _ => ⟨[]⟩

/-- Whether `a` comes before `b` or is `b`. -/
def Component.sortsBefore (a b : Component) : Bool :=
  a.place < b.place ||
    (a.place = b.place && Text.sortsBefore UInt8.toNat a.text.bytes b.text.bytes)

namespace Path

def slash : UInt8 := 0x2F

def dot : UInt8 := 0x2E

/-- The piece that stays where it is. -/
def current : RawText := ⟨[dot]⟩

/-- The piece that leads back. -/
def parent : RawText := ⟨[dot, dot]⟩

/-- The pieces between slashes, some of which may be empty. -/
def pieces (s : List UInt8) : List (List UInt8) :=
  match s with
  | [] => [[]]
  | b :: rest =>
    if b = slash then [] :: pieces rest
    else
      match pieces rest with
      | [] => [[b]]
      | piece :: more => (b :: piece) :: more

/-- The component that a piece spells, if it counts within a path. -/
def component? (piece : RawText) : Option Component :=
  if piece.bytes = [] ∨ piece = current then none
  else if piece = parent then some .parent
  else some (.name piece)

/-- The pieces of a path or of a link's target. -/
def piecesOf (path : RawText) : List RawText := (pieces path.bytes).map RawText.mk

/-- The components of a path. -/
def components (path : RawText) : List Component :=
  let all := piecesOf path
  let lead :=
    if path.bytes.head? = some slash then [.root]
    else if all.head? = some current then [.current]
    else []
  lead ++ all.filterMap component?

/-- The order of component lists, the first difference deciding. -/
def componentsSort : List Component → List Component → Bool
  | [], _ => true
  | _ :: _, [] => false
  | a :: as, b :: bs => if a = b then componentsSort as bs else a.sortsBefore b

/-- Whether `a` comes before `b` or they are one path. -/
def sortsBefore (a b : RawText) : Bool := componentsSort (components a) (components b)

/-- Whether `a` and `b` spell one path. -/
def same (a b : RawText) : Bool := components a = components b

/-- The path of an entry of a directory. -/
def join (directory name : RawText) : RawText :=
  if directory.bytes.getLast? = some slash then ⟨directory.bytes ++ name.bytes⟩
  else ⟨directory.bytes ++ slash :: name.bytes⟩

/-- What follows the last dot of a name; nothing follows a dot at its start. -/
def extension? (name : RawText) : Option RawText :=
  let s := name.bytes.reverse
  let stem := (s.dropWhile (· ≠ dot)).drop 1
  if stem.isEmpty then none else some ⟨(s.takeWhile (· ≠ dot)).reverse⟩

/-- Whether the name's extension is one of those wanted, whose dots at the start
do not count and whose case counts for nothing within ASCII. An extension that is no
text is none of them. -/
def hasExtension (name : RawText) (wanted : List String) : Bool :=
  ((extension? name).bind RawText.text?).any fun ext =>
    wanted.any fun w =>
      (w.toList.dropWhile (· = '.')).map Char.toLower = ext.toList.map Char.toLower

/-- Names that a search passes over: texts that start with a dot. A name that is no text is
none of them, whatever it starts with. -/
def isHidden (name : RawText) : Bool := name.text?.any fun text => text.toList.head? = some '.'

theorem ofString_dot : RawText.ofString "." = current := by decide

theorem componentsSort_refl (cs : List Component) : componentsSort cs cs = true := by
  induction cs with
  | nil => rfl
  | cons c cs ih => simp [componentsSort, ih]

theorem same_iff {a b : RawText} : same a b = true ↔ components a = components b := by
  simp [same]

theorem pieces_ne_nil (s : List UInt8) : pieces s ≠ [] := by
  unfold pieces
  split
  · simp
  · split
    · simp
    · split <;> simp

end Path

end DocOutline
