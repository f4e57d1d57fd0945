import Unscramble.Binary.Malformation

/-! # Errors and warnings

Every cause for which an operation of this library fails, and its text, and what is worth telling
that stops nothing. -/

namespace Unscramble

/-- Why a line of a name table is no entry. -/
inductive TableFault where
  /-- The line does not separate a key from a value. -/
  | missingEquals (line : String)
  /-- Nothing stands before the separator. -/
  | emptyKey (line : String)
  /-- The line has a second separator. -/
  | manyEquals (line : String)
  /-- A class cannot move into another class. -/
  | movedClass (key : String)
  /-- The value names no class and name to move to. -/
  | badMove (value : String)
deriving DecidableEq, Repr, Inhabited

namespace TableFault

/-- The fault in words. -/
def message : TableFault → String
  | .missingEquals line => "missing `=` in `" ++ line ++ "`"
  | .emptyKey line => "empty key in `" ++ line ++ "`"
  | .manyEquals line => "more than one `=` in `" ++ line ++ "`"
  | .movedClass key => "class `" ++ key ++ "` cannot be relocated"
  | .badMove value => "malformed relocation `" ++ value ++ "`"

end TableFault

/-- Why an operation failed. -/
inductive Error where
  /-- A stage name that names no stage. -/
  | unknownStage (name : String)
  /-- A line of a name table that is no entry. -/
  | nameTable (line : Nat) (fault : TableFault)
  /-- No stage is left to run. -/
  | noStages
  /-- A pattern uses a token that names no opcode. -/
  | unknownToken (pattern token : String)
  /-- A pattern is not well formed. -/
  | badPattern (pattern : String)
  /-- A stage still reports changes after the last pass it is granted. -/
  | unsettled (stage : String) (passes : Nat)
  /-- A body needs more local slots than there are. -/
  | slotsExhausted (method : String)
  /-- A hook found a condition violated that it relies on. -/
  | violated (condition : String)
  /-- A group of loads and stores uses two slots. -/
  | mergedSlots (method : String) (first second : UInt16)
  /-- A member that belongs to instances was to be moved to another class. -/
  | nonStaticRelocation (member : String)
  /-- A label that is used stands nowhere in its body. -/
  | missingLabel
  /-- A file cannot be read or written. -/
  | io (path : String)
  /-- An archive cannot be read or written. -/
  | archive (reason : String)
  /-- A class file cannot be read, or a class cannot be written. -/
  | classFormat (name : String) (cause : Binary.Malformation)
  /-- A sum has more bits than its type, so the program stops right there. Additions are checked. -/
  | overflow
deriving DecidableEq, Repr, Inhabited

namespace Error

/-- The text of an error. -/
def message : Error → String
  | .unknownStage name => "unknown stage `" ++ name ++ "`"
  | .nameTable line fault =>
    "malformed name table line " ++ toString line ++ ": " ++ fault.message
  | .noStages => "no stages left to run"
  | .unknownToken pattern token =>
    "invalid instruction pattern `" ++ pattern ++ "` near `" ++ token ++ "`"
  | .badPattern pattern => "invalid instruction pattern `" ++ pattern ++ "`"
  | .unsettled stage passes =>
    "invariant violated: stage " ++ stage ++ " did not settle after " ++ toString passes ++
      " passes"
  | .slotsExhausted method =>
    "invariant violated: " ++ method ++ " needs more than 65535 local slots"
  | .violated condition => "invariant violated: " ++ condition
  | .mergedSlots method first second =>
    "variable group in " ++ method ++ " spans slots " ++ toString first.toNat ++ " and "
      ++ toString second.toNat
  | .nonStaticRelocation member => "tried to relocate non-static member " ++ member
  | .missingLabel => Binary.Malformation.missingLabel.message
  | .io path => "i/o error on " ++ Text.quoted path
  | .archive reason => "archive error: " ++ reason
  | .classFormat name cause => "malformed class `" ++ name ++ "`: " ++ cause.message
  | .overflow => Binary.Malformation.overflow.message

/-- The error that a malformation of a class is. A label that stands nowhere is no fault of the
class file, so it is told without the class, and an overflow is none that is told at all. -/
def inClass (name : String) : Binary.Malformation → Error
  | .missingLabel => .missingLabel
  | .overflow => .overflow
  | cause => .classFormat name cause

end Error

/-! ### Warnings

Things worth telling that stop nothing. -/

/-- Something worth telling. -/
inductive Warning where
  /-- A part of the input was left out. -/
  | skipped (cause : Error)
  /-- A member cannot move because its new class does not exist. -/
  | missingTarget (target : String) (member : Member)
  /-- A name table moves a member into a class that does not exist. -/
  | unknownClass (member : Member) (owner : String)
  /-- A stage took remarkably many passes. -/
  | slowStage (stage : String) (passes : Nat)
deriving DecidableEq, Repr, Inhabited

namespace Warning

/-- The text of a warning. -/
def text : Warning → String
  | .skipped cause => cause.message ++ ", skipping"
  | .missingTarget target member =>
    "Relocation target " ++ target ++ " of " ++ member.text ++ " does not exist, skipping"
  | .unknownClass member owner => "Cannot move " ++ member.text ++ " into unknown class " ++ owner
  | .slowStage stage passes => stage ++ " needed " ++ toString passes ++ " passes"

end Warning

end Unscramble
