import Unscramble.Text.Basic

/-! # Descriptors

Descriptors spell types: `I`, `[J`, `La/b;` for a field, `(ILa/b;)V` for a method. The functions
here also answer on texts that spell no type, because class files may hold any text.

Main definitions: `arguments`, `returnType`, `argumentSlots`, `mapClasses`, `mapClassOperand`. -/

namespace Unscramble.Descriptor

open Text (cut length_dropWhile_le length_lt_of_cut)

/-- The argument types of a method descriptor from behind its opening parenthesis on. The list ends
at the closing parenthesis, at the end of the text, or at a class type without its semicolon. -/
def argumentsFrom (cs : List Char) : List (List Char) :=
  if cs.head? == some ')' then [] else
    let dims := cs.takeWhile (· == '[')
    match _h : cs.dropWhile (· == '[') with
    | [] => []
    | c :: rest =>
      if c == 'L' then
        match _hc : cut ';' rest with
        | none => []
        | some (name, rest') => (dims ++ 'L' :: name ++ [';']) :: argumentsFrom rest'
      else (dims ++ [c]) :: argumentsFrom rest
termination_by cs.length
decreasing_by
  · have h₁ := length_dropWhile_le (· == '[') cs
    have h₂ := length_lt_of_cut _hc
    rw [_h] at h₁
    simp only [List.length_cons] at h₁
    omega
  · have h₁ := length_dropWhile_le (· == '[') cs
    rw [_h] at h₁
    simp only [List.length_cons] at h₁
    omega

/-- The argument types of a method descriptor, empty if the text has no opening parenthesis. A letter
that is no mark of a class or an array is one argument, whatever letter it is; if the text spells types,
it is one of a single byte. -/
def arguments (descriptor : String) : List String :=
  match cut '(' descriptor.toList with
  | none => []
  | some (_, rest) => (argumentsFrom rest).map String.ofList

/-- The part of a descriptor after its last closing parenthesis. -/
def returnType (descriptor : String) : String :=
  Text.afterLast ')' descriptor

/-- Whether a value of this type takes two slots. -/
def isWide (type : String) : Bool :=
  type == "J" || type == "D"

/-- How many slots a value of this type takes. -/
def width (type : String) : Nat :=
  if isWide type then 2 else 1

/-- The number of local slots that the arguments of a method take. There are at most 65535 of them if
the descriptor has no more than 32767 characters. -/
def argumentSlots (descriptor : String) : Nat :=
  (arguments descriptor).foldr (fun type n => width type + n) 0

/-- A descriptor cut at its class names: texts between names, each but the last followed by a name.
A name stands between an `L` and the next semicolon. -/
def segments (cs : List Char) : List (List Char × List Char) × List Char :=
  match _h : cut 'L' cs with
  | none => ([], cs)
  | some (before, rest) =>
    match _h' : cut ';' rest with
    | none => ([], cs)
    | some (name, rest') =>
      let (more, last) := segments rest'
      ((before, name) :: more, last)
termination_by cs.length
decreasing_by
  have h₁ := length_lt_of_cut _h
  have h₂ := length_lt_of_cut _h'
  omega

/-- The class names that a descriptor mentions, in order. -/
def classNames (descriptor : String) : List String :=
  (segments descriptor.toList).1.map fun s => String.ofList s.2

/-- Replaces every class name that a descriptor mentions through `f`, which answers `none` for a
name to keep. -/
def mapClasses (f : String → Option String) (descriptor : String) : String :=
  let (parts, last) := segments descriptor.toList
  let text := parts.flatMap fun (before, name) =>
    let name := String.ofList name
    before ++ 'L' :: ((f name).getD name).toList ++ [';']
  String.ofList (text ++ last)

/-- Replaces the class operand of an instruction or reference, which is the name of a class or the
descriptor of an array type. -/
def mapClassOperand (f : String → Option String) (operand : String) : String :=
  if operand.toList.head? == some '[' then mapClasses f operand else (f operand).getD operand

end Unscramble.Descriptor
