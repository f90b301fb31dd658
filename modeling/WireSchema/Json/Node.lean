import WireSchema.Json.Scalar

/-!
Documents with the places of their parts. Reading a text gives the tree of what stands in it up to
the first thing that is no document, which stays in the tree at its place; whoever walks the
tree in the order of the text meets it there.
-/

set_option autoImplicit false

namespace WireSchema.Json

inductive Ending where
  /-- Closed; the mark is past the bracket. -/
  | closed (finish : Mark)
  /-- Cut short where the next item or name should have come. -/
  | cut (problem : Problem)

/-- The name of a member and the places around it: `start` is at its quote, `endOfName` is past
the other one, and `afterName` and `afterValue` are past the blanks that follow, and past a
closing brace if one follows. -/
structure Member where
  start : Mark
  /-- The name, or why it cannot be read. -/
  name : Except Problem String
  endOfName : Mark
  afterName : Mark
  afterValue : Mark

inductive Node where
  | scalar (start finish : Mark) (value : Scalar)
  /-- A value that can only be passed over. -/
  | flawed (start finish : Mark) (first : Char) (problem : Problem)
  /-- No value; nothing that follows has been looked at, except that `past` is behind the first
  character and the blanks after it. -/
  | broken (start past : Mark) (first : Option Char) (reading passing : Problem)
  /-- The colon in front of the value is missing. -/
  | withheld (problem : Problem)
  | list (start : Mark) (items : List Node) (ending : Ending)
  | object (start : Mark) (members : List (Member × Node)) (ending : Ending)

def Node.start : Node → Mark
  | .scalar start _ _ => start
  | .flawed start _ _ _ => start
  | .broken start _ _ _ _ => start
  | .withheld problem => problem.mark
  | .list start _ _ => start
  | .object start _ _ => start

structure NodeRead where
  node : Node
  next : Option Cursor

def ScalarRead.node (c : Cursor) (first : Char) : ScalarRead → NodeRead
  | .found value next => ⟨.scalar c.mark next.mark value, some next⟩
  | .flawed problem next => ⟨.flawed c.mark next.mark first problem, some next⟩
  | .broken reading passing =>
    ⟨.broken c.mark c.bump.skipBlanks.mark (some first) reading passing, none⟩

def Cursor.missing (c : Cursor) : NodeRead :=
  ⟨.broken c.mark c.mark none ⟨.endInValue, c.mark⟩ ⟨.endInValue, c.mark⟩, none⟩

def readScalar (c : Cursor) (first : Char) : ScalarRead :=
  if first = '"' then readString ⟨[], none, none⟩ c.bump.mark c.bump.rest
  else if first = '-' then readNumber true c.bump
  else if first.isDigit then readNumber false c
  else if first = 'n' then readWord .null "ull".toList c.bump.mark c.bump.rest
  else if first = 't' then readWord (.bool true) "rue".toList c.bump.mark c.bump.rest
  else if first = 'f' then readWord (.bool false) "alse".toList c.bump.mark c.bump.rest
  else .stop .expectedValue c.peeked

structure ItemsRead where
  items : List Node
  ending : Ending
  next : Option Cursor

structure MembersRead where
  members : List (Member × Node)
  ending : Ending
  next : Option Cursor

def ItemsRead.stop (cause : SyntaxCause) (mark : Mark) : ItemsRead :=
  ⟨[], .cut ⟨cause, mark⟩, none⟩

def MembersRead.stop (cause : SyntaxCause) (mark : Mark) : MembersRead :=
  ⟨[], .cut ⟨cause, mark⟩, none⟩

def Cursor.pastBrace (c : Cursor) : Mark :=
  let c := c.skipBlanks
  match c.rest with
  | '\x7d' :: _ => c.bump.mark
  | _ => c.mark

mutual

/-- The value at a cursor. Each step inwards or onwards takes one unit of `fuel`. -/
def readNode : Nat → Cursor → NodeRead
  | 0, c => c.missing
  | fuel + 1, c =>
    let c := c.skipBlanks
    match c.rest with
    | [] => c.missing
    | '[' :: _ =>
      let r := readItems fuel true c.bump
      ⟨.list c.mark r.items r.ending, r.next⟩
    | '\x7b' :: _ =>
      let r := readMembers fuel true c.bump
      ⟨.object c.mark r.members r.ending, r.next⟩
    | first :: _ => (readScalar c first).node c first

def readItems : Nat → Bool → Cursor → ItemsRead
  | 0, _, c => .stop .endInList c.mark
  | fuel + 1, isFirst, c =>
    let c := c.skipBlanks
    match c.rest with
    | [] => .stop .endInList c.mark
    | ']' :: _ => ⟨[], .closed c.bump.mark, some c.bump⟩
    | first :: _ =>
      if isFirst then readItem fuel c
      else if first = ',' then
        let c := c.bump.skipBlanks
        match c.rest with
        | [] => .stop .endInValue c.mark
        | ']' :: _ => .stop .trailingComma c.peeked
        | _ => readItem fuel c
      else .stop .expectedListCommaOrEnd c.peeked

def readItem : Nat → Cursor → ItemsRead
  | 0, c => .stop .endInList c.mark
  | fuel + 1, c =>
    let r := readNode fuel c
    match r.next with
    | none => ⟨[r.node], .cut ⟨.endInList, c.mark⟩, none⟩
    | some c =>
      let more := readItems fuel false c
      ⟨r.node :: more.items, more.ending, more.next⟩

def readMembers : Nat → Bool → Cursor → MembersRead
  | 0, _, c => .stop .endInObject c.mark
  | fuel + 1, isFirst, c =>
    let c := c.skipBlanks
    match c.rest with
    | [] => .stop .endInObject c.mark
    | '\x7d' :: _ => ⟨[], .closed c.bump.mark, some c.bump⟩
    | first :: _ =>
      if isFirst then
        if first = '"' then readMember fuel c else .stop .keyNotString c.peeked
      else if first = ',' then
        let c := c.bump.skipBlanks
        match c.rest with
        | [] => .stop .endInValue c.mark
        | '"' :: _ => readMember fuel c
        | '\x7d' :: _ => .stop .trailingComma c.peeked
        | _ => .stop .keyNotString c.peeked
      else .stop .expectedObjectCommaOrEnd c.peeked

def readMember : Nat → Cursor → MembersRead
  | 0, c => .stop .endInObject c.mark
  | fuel + 1, c =>
    match readString ⟨[], none, none⟩ c.bump.mark c.bump.rest with
    | .broken reading passing =>
      ⟨[(⟨c.mark, .error reading, c.mark, c.mark, c.mark⟩,
        .broken c.mark c.mark (some '"') reading passing)], .cut reading, none⟩
    | .flawed problem next => readValue fuel c.mark (.error problem) next
    | .found (.string name) next => readValue fuel c.mark (.ok name) next
    | .found _ next => readValue fuel c.mark (.ok "") next

def readValue : Nat → Mark → Except Problem String → Cursor → MembersRead
  | 0, _, _, c => .stop .endInObject c.mark
  | fuel + 1, start, name, c =>
    let endOfName := c.mark
    let afterName := c.pastBrace
    let c := c.skipBlanks
    match c.rest with
    | ':' :: _ =>
      let r := readNode fuel c.bump
      match r.next with
      | none =>
        ⟨[(⟨start, name, endOfName, afterName, c.mark⟩, r.node)],
          .cut ⟨.endInObject, c.mark⟩, none⟩
      | some c =>
        let more := readMembers fuel false c
        ⟨(⟨start, name, endOfName, afterName, c.pastBrace⟩, r.node) :: more.members,
          more.ending, more.next⟩
    | rest =>
      let problem : Problem :=
        ⟨if rest = [] then .endInObject else .expectedColon, c.peeked⟩
      ⟨[(⟨start, name, endOfName, afterName, c.mark⟩, .withheld problem)], .cut problem, none⟩

end

def readText (text : List Char) : NodeRead :=
  readNode (4 * text.length + 4) ⟨text, Mark.start⟩

end WireSchema.Json
