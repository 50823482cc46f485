import AsrServiceProxy.Config.Value

-- Where a value comes from, and how origins are merged.
namespace AsrServiceProxy.Config

open CMemory

inductive OriginType where
  | GENERIC
  | FILE
deriving DecidableEq, Repr

-- A line that is negative is not known.
structure SimpleConfigOrigin where
  description : Bytes
  lineNumber : ℤ
  endLineNumber : ℤ
  originType : OriginType
  commentsOrNull : List Bytes
  description_ne_nil : description ≠ []
deriving DecidableEq

namespace SimpleConfigOrigin

def makeInstance (description : Bytes) (lineNumber endLineNumber : ℤ) (originType : OriginType)
    (commentsOrNull : List Bytes) : Except ConfigException SimpleConfigOrigin :=
  if h : description = [] then .error (.bugOrBroken "description may not be empty")
  else
    .ok
      { description := description
        lineNumber := lineNumber
        endLineNumber := endLineNumber
        originType := originType
        commentsOrNull := commentsOrNull
        description_ne_nil := h }

-- `description()`
def fullDescription (o : SimpleConfigOrigin) : Bytes :=
  if o.lineNumber < 0 then o.description
  else if o.endLineNumber = o.lineNumber then
    o.description ++ ascii ": " ++ ascii (toString o.lineNumber)
  else
    o.description ++ ascii ": " ++ ascii (toString o.lineNumber) ++ ascii "-" ++
      ascii (toString o.endLineNumber)

def mergeOfPrefix : Bytes := ascii "merge of "

def withoutMergeOf (description : Bytes) : Bytes :=
  if mergeOfPrefix.isPrefixOf description then description.drop mergeOfPrefix.length
  else description

def mergedStartLine (a b : ℤ) : ℤ :=
  if a < 0 then b
  else if b < 0 then a
  else min a b

def mergeTwo (a b : SimpleConfigOrigin) : Except ConfigException SimpleConfigOrigin :=
  let mergedType := if a.originType = b.originType then a.originType else .GENERIC
  let aDesc := withoutMergeOf a.description
  let bDesc := withoutMergeOf b.description
  let mergedComments :=
    if a.commentsOrNull = b.commentsOrNull then a.commentsOrNull
    else a.commentsOrNull ++ b.commentsOrNull
  if aDesc = bDesc then
    makeInstance aDesc (mergedStartLine a.lineNumber b.lineNumber)
      (max a.endLineNumber b.endLineNumber) mergedType mergedComments
  else
    makeInstance
      (mergeOfPrefix ++ withoutMergeOf a.fullDescription ++ ascii "," ++
        withoutMergeOf b.fullDescription)
      (-1) (-1) mergedType mergedComments

def similarity (a b : SimpleConfigOrigin) : ℕ :=
  (if a.originType = b.originType then 1 else 0) +
    if a.description = b.description then
      1 + (if a.lineNumber = b.lineNumber then 1 else 0) +
        if a.endLineNumber = b.endLineNumber then 1 else 0
    else 0

def mergeThree (a b c : SimpleConfigOrigin) : Except ConfigException SimpleConfigOrigin :=
  if similarity b c ≤ similarity a b then do
    let merged ← mergeTwo a b
    mergeTwo merged c
  else do
    let merged ← mergeTwo b c
    mergeTwo a merged

-- The loop takes three from the back of the vector and gives one back, so that it ends;
-- the vector is in reverse order.
def mergeLoop : List SimpleConfigOrigin → Except ConfigException (List SimpleConfigOrigin)
  | c :: b :: a :: remaining => do
      let merged ← mergeThree a b c
      mergeLoop (merged :: remaining)
  | remaining => .ok remaining
termination_by remaining => remaining.length

def mergeShort : List SimpleConfigOrigin → Except ConfigException SimpleConfigOrigin
  | [] => .error (.bugOrBroken "can't merge empty list of origins")
  | [a] => .ok a
  | [a, b] => mergeTwo a b
  | _ => .error .outOfFuel

def mergeOrigins (stack : List SimpleConfigOrigin) : Except ConfigException SimpleConfigOrigin :=
  if stack.length ≤ 2 then mergeShort stack
  else do
    let remaining ← mergeLoop stack.reverse
    -- down to either 1 or 2
    mergeShort remaining.reverse

end SimpleConfigOrigin

end AsrServiceProxy.Config
