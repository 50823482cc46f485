import AsrServiceProxy.Config.Parser
import AsrServiceProxy.Lib.Transition

-- How the parser takes the comments out of the token stream, for tokens of any type:
-- only the newlines and the comments are told from the others.
namespace AsrServiceProxy.Config.Comments

open Transition

inductive Kind where
  | newline
  | comment
  | other
deriving DecidableEq, Repr

structure TokenWithComments (τ : Type) where
  token : τ
  comments : List τ
deriving DecidableEq, Repr

structure ParseContext (τ : Type) where
  tokens : List τ
  buffer : List (TokenWithComments τ)

-- What the loop of `consolidate_comment_block` collects, and the tokens it has left.
structure Block (τ : Type) where
  newlines : List τ
  comments : List τ
  next : τ
  tokens : List τ

section

variable {τ : Type} (kind : τ → Kind)

-- A stream that has no token left throws.
def blockLoop (previous : Option τ) (newlines comments : List τ) (next : τ) (tokens : List τ) :
    Option (Block τ) :=
  match kind next with
  | .newline =>
      let comments := if previous.map kind = some .newline then [] else comments
      match tokens with
      | [] => none
      | t :: tokens => blockLoop (some next) (newlines ++ [next]) comments t tokens
  | .comment =>
      match tokens with
      | [] => none
      | t :: tokens => blockLoop (some next) newlines (comments ++ [next]) t tokens
  | .other => some { newlines := newlines, comments := comments, next := next, tokens := tokens }

def ParseContext.pushFront (context : ParseContext τ) (token : TokenWithComments τ) :
    ParseContext τ :=
  { context with buffer := token :: context.buffer }

def consolidateCommentBlock (context : ParseContext τ) (commentToken : τ) :
    Option (ParseContext τ) := do
  let block ← blockLoop kind none [] [] commentToken context.tokens
  let context := { context with tokens := block.tokens }
  let context := context.pushFront { token := block.next, comments := block.comments }
  -- from the last newline to the first
  return block.newlines.reverse.foldl
    (fun context t => context.pushFront { token := t, comments := [] }) context

def ParseContext.popFront (context : ParseContext τ) :
    Option (TokenWithComments τ × ParseContext τ) :=
  match context.buffer with
  | [] => none
  | token :: buffer => some (token, { context with buffer := buffer })

def popToken (context : ParseContext τ) : Option (TokenWithComments τ × ParseContext τ) :=
  if context.buffer.isEmpty then
    match context.tokens with
    | [] => none
    | t :: tokens =>
        let context := { context with tokens := tokens }
        if kind t = .comment then do
          let context ← consolidateCommentBlock kind context t
          context.popFront
        else some ({ token := t, comments := [] }, context)
  else context.popFront

def putBack (context : ParseContext τ) (token : TokenWithComments τ) : ParseContext τ :=
  context.pushFront token

-- A caller of both; `out` has the tokens that were popped and not put back, the last
-- one at the front.
structure Session (τ : Type) where
  context : ParseContext τ
  out : List (TokenWithComments τ)

inductive Action where
  | pop
  | putBack

def Session.step (s : Session τ) : Action → Option (Session τ)
  | .pop => do
      let popped ← popToken kind s.context
      return { context := popped.2, out := popped.1 :: s.out }
  | .putBack =>
      match s.out with
      | [] => none
      | token :: out => some { context := Comments.putBack s.context token, out := out }

def start (stream : List τ) : Session τ where
  context := { tokens := stream, buffer := [] }
  out := []

def sessions (stream : List τ) : System (Session τ) Action where
  init s := s = start stream
  step := Session.step kind

end

end AsrServiceProxy.Config.Comments
