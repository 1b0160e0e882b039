/-
Passing over values nobody asked for. They have to be well formed, but
may nest to any depth, and their numbers may have any size. What is open
around the current position is kept on a stack.
-/
import FlowPricing.Json.Number
import FlowPricing.Json.Text

namespace FlowPricing.Json.Skip

/-- What encloses a value. -/
inductive Frame where
  | array
  | object
deriving DecidableEq, Repr

/-- The byte that ends the frame. -/
def Frame.closing : Frame → UInt8
  | array => Byte.closeBracket
  | object => Byte.closeBrace

/-- Passes over a number. One that ends too early is malformed here. -/
def number (bs : Bytes) : Except Fault Bytes :=
  match Literal.scan bs with
  | .ok (_, rest) => .ok rest
  | .error _ => .error .malformed

/-- Passes over a value that is neither an array nor an object. -/
def scalar : Bytes → Except Fault Bytes
  | [] => .error .truncated
  | b :: rest =>
      if b = Byte.ofChar 'n' then word (ascii "ull") rest
      else if b = Byte.ofChar 't' then word (ascii "rue") rest
      else if b = Byte.ofChar 'f' then word (ascii "alse") rest
      else if b = Byte.quote then Text.pass rest
      else if b = Byte.minus || Byte.isDigit b then number (b :: rest)
      else .error .malformed

/-- Passes over the key of a member and the colon after it. -/
def key (bs : Bytes) : Except Fault Bytes := do
  let bs ← punctuation Byte.quote bs
  let bs ← Text.pass bs
  punctuation Byte.colon bs

/-- Goes to the first value of a freshly opened frame; `none` with the text
after it if the frame is empty. -/
def enter (f : Frame) (bs : Bytes) : Except Fault (Option Unit × Bytes) :=
  match skipBlanks bs with
  | [] => .error .truncated
  | b :: rest =>
      if b = f.closing then .ok (none, rest)
      else match f with
        | .array => .ok (some (), bs)
        | .object => (key bs).map fun r => (some (), r)

/-- Goes on after a value: closes every frame that ends here. What is left
open comes back with the text of the next value; with nothing left open
the text is what follows the outermost value. -/
def leave : List Frame → Bytes → Except Fault (List Frame × Bytes)
  | [], bs => .ok ([], bs)
  | f :: fs, bs =>
      match skipBlanks bs with
      | [] => .error .truncated
      | b :: rest =>
          if b = Byte.comma then
            match f with
            | .array => .ok (f :: fs, rest)
            | .object => (key rest).map fun r => (f :: fs, r)
          else if b = f.closing then leave fs rest
          else .error .malformed

/-- Passes over the value at the front of the text and closes the frames
around it. Every step gets nearer to the end of the text. -/
def values (frames : List Frame) (bs : Bytes) : Except Fault Bytes :=
  let step (after : Except Fault (List Frame × Bytes)) : Except Fault Bytes :=
    match after with
    | .error f => .error f
    | .ok ([], rest) => .ok rest
    | .ok (f :: fs, rest) =>
        if rest.length < bs.length then values (f :: fs) rest
        else .error .malformed
  let opened (f : Frame) (rest : Bytes) : Except Fault Bytes :=
    match enter f rest with
    | .error e => .error e
    | .ok (none, rest') => step (leave frames rest')
    | .ok (some (), rest') => step (.ok (f :: frames, rest'))
  match skipBlanks bs with
  | [] => .error .truncated
  | b :: rest =>
      if b = Byte.openBracket then opened .array rest
      else if b = Byte.openBrace then opened .object rest
      else match scalar (b :: rest) with
        | .error f => .error f
        | .ok rest' => step (leave frames rest')
termination_by bs.length

/-- Passes over one value. -/
def value (bs : Bytes) : Except Fault Bytes := values [] bs

end FlowPricing.Json.Skip
