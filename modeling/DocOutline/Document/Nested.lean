import DocOutline.Forest
import DocOutline.Document.Builder

/-! Documents as forests of blocks.

`Document.nested` reads the blocks below the root back through first-child and
next-sibling links. `Step.nested` reads the steps of a build as brackets, from
the last to the first, without any links: an opening step holds what stands up to
the step that closes it, a close with nothing open is passed over, and what is
left open is closed at the end. `Forest.steps` replays a forest; reading the
replay gives the forest again (`nested_steps`). -/
namespace DocOutline

namespace Document

/-- The blocks from `start?` on, over next siblings and with what is below each,
in at most `fuel` links on any way. -/
def nestedFrom (d : Document) : Nat → Option NodeId → Forest Block
  | 0, _ => .nil
  | _ + 1, none => .nil
  | fuel + 1, some id =>
    match d.node? id with
    | none => .nil
    | some n =>
      .cons n.block (nestedFrom d fuel n.firstChild?) (nestedFrom d fuel n.nextSibling?)

/-- The blocks below the root. -/
def nested (d : Document) : Forest Block :=
  d.nestedFrom d.size ((d.node? root).bind Node.firstChild?)

end Document

namespace Step

/-- What some steps add to the innermost container open before them, and what
they add, after closing it, to the containers around it, the nearest first. -/
def added : List Step → Forest Block × List (Forest Block)
  | [] => (.nil, [])
  | leaf b :: rest =>
    let (here, around) := added rest
    (.cons b .nil here, around)
  | opening b :: rest =>
    match added rest with
    | (inside, []) => (.cons b inside .nil, [])
    | (inside, here :: around) => (.cons b inside here, around)
  | close :: rest =>
    let (here, around) := added rest
    (.nil, here :: around)

/-- The forest that the steps spell as brackets. -/
def nested (steps : List Step) : Forest Block :=
  let (here, around) := added steps
  here.append (around.foldr Forest.append .nil)

end Step

/-- The steps that build a forest of blocks. -/
def Forest.steps : Forest Block → List Step
  | .nil => []
  | .cons b below after => .opening b :: (below.steps ++ .close :: after.steps)

namespace Step

theorem added_steps_append (f : Forest Block) (rest : List Step) :
    added (f.steps ++ rest) = ((f.append (added rest).1), (added rest).2) := by
  induction f generalizing rest with
  | nil => rfl
  | cons b below after ihb iha =>
    simp [Forest.steps, added, ihb, iha, Forest.append]

theorem nested_steps (f : Forest Block) : nested f.steps = f := by
  have h := added_steps_append f []
  simp only [List.append_nil] at h
  simp [nested, h, added]

end Step

end DocOutline
