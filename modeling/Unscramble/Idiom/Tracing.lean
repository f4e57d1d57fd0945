import Unscramble.Body
import Unscramble.Pattern.Basic

/-! # Crash reports

Obfuscators wrap method bodies into ranges whose handler only reports a crash: it builds a message
out of the arguments, passes it on and throws again. Such ranges and their handlers carry no
meaning.

Main definitions: `removeTracingHandlers`, `removeRedundantGuards`. -/

namespace Unscramble.Idiom

/-- The class of the exceptions that reporting handlers catch. -/
def runtimeException : String := "java/lang/RuntimeException"

/-- The instructions of a reporting handler. -/
def tracingHandler : Pattern := .ofText
  ("ASTORE NEW DUP LDC INVOKESPECIAL " ++
    "((ALOAD | ILOAD | LLOAD | FLOAD | DLOAD | BIPUSH | SIPUSH | LDC) " ++
    "INVOKEVIRTUAL INVOKEVIRTUAL?)* " ++
    "INVOKEVIRTUAL INVOKESTATIC NEW DUP INVOKESPECIAL ATHROW")

/-- Whether a range catches runtime exceptions in a handler whose first real instruction is `entry`.
-/
def leadsTo (l : Listing) (entry : Handle) (g : Guard Label) : Bool :=
  g.catches == some runtimeException && l.nextReal? g.handler == some entry

/-- Removes the ranges that lead to a run of instructions, and the run with them, and counts the run
if there was such a range. -/
def removeHandler (state : Nat × Body) (run : List Handle) : Nat × Body :=
  let (count, b) := state
  match run with
  | [] => state
  | entry :: _ =>
    let guards := b.guards.filter fun g => !leadsTo b.listing entry g
    if guards.length < b.guards.length then
      (count + 1, { b with guards, listing := run.foldl Listing.remove b.listing })
    else state

/-- Removes every range of runtime exceptions whose handler matches a pattern, together with the
handler, and counts the handlers. -/
def removeTracingHandlers (handler : Pattern) (b : Body) : Nat × Body :=
  (handler.runs b.listing).foldl removeHandler (0, b)

/-- The last real instruction of a listing. -/
def lastReal? (l : Listing) : Option Handle :=
  l.handles.reverse.find? l.isReal

/-- Removes the ranges of runtime exceptions of a body that ends by throwing, and counts them. -/
def removeRedundantGuards (b : Body) : Nat × Body :=
  if (lastReal? b.listing).any fun h => (b.listing.get h).hasOpcode .athrow then
    let guards := b.guards.filter fun g => g.catches != some runtimeException
    (b.guards.length - guards.length, { b with guards })
  else (0, b)

end Unscramble.Idiom
