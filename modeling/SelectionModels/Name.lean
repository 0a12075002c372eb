import SelectionModels.Text.UpperCase

/-! # Names

The rules by which names are made from names. Nothing here looks at more than the name it is given,
so equal names always give equal names.

* `identifier` keeps ASCII letters, digits and underscores, replaces every other character by an
  underscore, and guards an empty name or a leading digit by one more underscore
  (`identifierChars_nil`, `identifierChars_cons`);
* `capitalize` puts the first character in upper case (`capitalizeChars_cons`);
* `subNamespace` hangs a child under a namespace; under the empty one the child stands alone
  (`subNamespace_empty`);
* `QualifiedName`: a namespace and simple names; a text is cut at its last dot, if it has one
  (`splitLast?_eq_none_iff`, `eq_of_splitLast?`).
-/

namespace SelectionModels.Name

/-! ## Conventions -/

/-- The built-in types, and the stand-in for unmapped scalars, live in the empty namespace. -/
def preludeNamespace : String := ""

/-- The part of a namespace that holds the adapters. -/
def adapterPart : String := "adapter"

/-- The part of a namespace that holds the enums. -/
def enumPart : String := "type"

/-- What tells the root of an adapter from the root of its model. -/
def responseAdapterSuffix : String := "_ResponseAdapter"

/-- The type that encloses the holders of the custom scalars. -/
def scalarsHolder : String := "Scalars"

/-- The name of the custom scalar registry. -/
def registryName : String := "CustomScalars"

/-- The type of a custom scalar that nobody mapped. -/
def unmappedScalarType : String := "Any"

/-! ## Case -/

/-- A name with its first character in upper case. -/
def capitalizeChars : List Char → List Char
  | [] => []
  | c :: cs => Text.upperCase c ++ cs

def capitalize (s : String) : String :=
  String.ofList (capitalizeChars s.toList)

@[simp] theorem capitalizeChars_nil : capitalizeChars [] = [] := rfl

@[simp] theorem capitalizeChars_cons (c : Char) (cs : List Char) :
    capitalizeChars (c :: cs) = Text.upperCase c ++ cs := rfl

/-- The root name of the adapters that belong to a root name. -/
def responseAdapter (root : String) : String :=
  capitalize root ++ responseAdapterSuffix

/-! ## Identifiers -/

/-- The characters an identifier is made of. -/
def isIdentifierChar (c : Char) : Bool :=
  c.isAlphanum || c == '_'

/-- The character itself if an identifier may hold it, else an underscore. -/
def identifierChar (c : Char) : Char :=
  if isIdentifierChar c then c else '_'

/-- An underscore in front of an empty name and of a leading digit. -/
def guardStart : List Char → List Char
  | [] => ['_']
  | c :: cs => if c.isDigit then '_' :: c :: cs else c :: cs

def identifierChars (cs : List Char) : List Char :=
  guardStart (cs.map identifierChar)

/-- The identifier made from any name. -/
def identifier (s : String) : String :=
  String.ofList (identifierChars s.toList)

@[simp] theorem identifierChars_nil : identifierChars [] = ['_'] := rfl

theorem identifierChars_cons (c : Char) (cs : List Char) :
    identifierChars (c :: cs) =
      if (identifierChar c).isDigit then '_' :: identifierChar c :: cs.map identifierChar
      else identifierChar c :: cs.map identifierChar := rfl

/-! ## Namespaces -/

/-- The namespace of a child. -/
def subNamespace (ns child : String) : String :=
  if ns = "" then child else ns ++ "." ++ child

@[simp] theorem subNamespace_empty (child : String) : subNamespace "" child = child := rfl

theorem subNamespace_of_ne {ns : String} (h : ns ≠ "") (child : String) :
    subNamespace ns child = ns ++ "." ++ child := by
  simp [subNamespace, h]

/-- The namespace of the adapters. -/
def adapterNamespace (ns : String) : String :=
  subNamespace ns adapterPart

/-- The namespace of the enums. -/
def enumNamespace (ns : String) : String :=
  subNamespace ns enumPart

end SelectionModels.Name

namespace SelectionModels

/-! ## Qualified names

A nested type's name: a namespace and the simple names that lead to the type, outermost first. It
is displayed with dots, the empty namespace without one. -/

structure QualifiedName where
  ns : String
  simpleNames : List String
deriving DecidableEq, Repr

namespace QualifiedName

/-- The innermost name, under which the type is declared. -/
def simpleName (q : QualifiedName) : String :=
  q.simpleNames.getLastD ""

/-- The dotted text of a name. -/
def display (q : QualifiedName) : String :=
  (if q.ns = "" then "" else q.ns ++ ".") ++ ".".intercalate q.simpleNames

/-- A name outside every namespace. -/
def prelude (simple : String) : QualifiedName :=
  ⟨Name.preludeNamespace, [simple]⟩

/-! ### Splitting -/

/-- What stands before and after the last `sep`. -/
def splitLast? (sep : Char) : List Char → Option (List Char × List Char)
  | [] => none
  | c :: cs =>
    match splitLast? sep cs with
    | some (before, after) => some (c :: before, after)
    | none => if c = sep then some ([], cs) else none

theorem splitLast?_eq_none_iff {sep : Char} {cs : List Char} :
    splitLast? sep cs = none ↔ sep ∉ cs := by
  induction cs with
  | nil => simp [splitLast?]
  | cons c cs ih =>
    simp only [splitLast?, List.mem_cons, not_or]
    cases h : splitLast? sep cs with
    | some p => simp [h] at ih; simp [ih]
    | none =>
      have := ih.1 h
      by_cases hc : sep = c
      · simp [hc]
      · simp [hc, Ne.symm hc, this]

theorem eq_of_splitLast? {sep : Char} {cs before after : List Char}
    (h : splitLast? sep cs = some (before, after)) :
    cs = before ++ sep :: after ∧ sep ∉ after := by
  induction cs generalizing before with
  | nil => simp [splitLast?] at h
  | cons c cs ih =>
    simp only [splitLast?] at h
    cases h' : splitLast? sep cs with
    | some p =>
      obtain ⟨b, a⟩ := p
      simp only [h', Option.some.injEq, Prod.mk.injEq] at h
      obtain ⟨rfl, rfl⟩ := h
      obtain ⟨rfl, hn⟩ := ih h'
      exact ⟨rfl, hn⟩
    | none =>
      simp only [h'] at h
      split at h
      · rename_i hc
        simp only [Option.some.injEq, Prod.mk.injEq] at h
        obtain ⟨rfl, rfl⟩ := h
        exact ⟨by rw [hc, List.nil_append], splitLast?_eq_none_iff.1 h'⟩
      · cases h

/-- The name that a dotted text stands for: what follows the last dot is the simple name, what
precedes it the namespace. -/
def ofDotted (dotted : String) : QualifiedName :=
  match splitLast? '.' dotted.toList with
  | some (before, after) => ⟨String.ofList before, [String.ofList after]⟩
  | none => prelude dotted

end QualifiedName

end SelectionModels
