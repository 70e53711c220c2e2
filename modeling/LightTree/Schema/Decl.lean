import LightTree.Schema.Category

/-!
# Field declarations and node kinds

A node kind declares the fields of its nodes. A declaration is a scalar with its initial value, a
choice between options, a list whose elements are built from declarations of their own, or a field
that is gated by another one.
-/

namespace LightTree

/-- An option of a choice: the value goes on the wire, the name is what a user sees. -/
structure Choice where
  name : String
  value : String
deriving DecidableEq, Repr

inductive Scalar
  | integer (value : Int64)
  | position (value : Int64)
  | boolean (value : Bool)
  | text (value : String)
  | color (value : String)
deriving DecidableEq, Repr

/-- What sets the length of a list: its user, the children of its node, or another list. -/
inductive LengthRule
  | free
  | children
  | field (name : String)
deriving DecidableEq, Repr

/-- When a gated field is active: while its source is present, or while it has a given value. -/
inductive Condition
  | present
  | equals (target : String)
deriving DecidableEq, Repr

inductive FieldDecl
  | scalar (name : String) (initial : Scalar)
  | choice (name : String) (options : List Choice)
  | list (name : String) (rule : LengthRule) (element : List FieldDecl)
  | gated (name : String) (source : String) (condition : Condition) (inner : FieldDecl)
deriving Repr

/-- The kinds of field, one word each in a descriptor. -/
inductive FieldKind
  | integer
  | position
  | boolean
  | choice
  | text
  | color
  | list
  | link
  | rely
  | relyValue
deriving DecidableEq, Repr

def FieldKind.keyword : FieldKind → String
  | integer => "int"
  | position => "position"
  | boolean => "boolean"
  | choice => "select"
  | text => "string"
  | color => "color"
  | list => "repeat"
  | link => "link"
  | rely => "rely"
  | relyValue => "rely_value"

def Scalar.kind : Scalar → FieldKind
  | integer _ => .integer
  | position _ => .position
  | boolean _ => .boolean
  | text _ => .text
  | color _ => .color

def Condition.kind : Condition → FieldKind
  | present => .rely
  | equals _ => .relyValue

namespace FieldDecl

mutual

def decEq : (a b : FieldDecl) → Decidable (a = b)
  | .scalar n v, .scalar m w => decidable_of_iff (n = m ∧ v = w) (by simp)
  | .choice n o, .choice m p => decidable_of_iff (n = m ∧ o = p) (by simp)
  | .list n r e, .list m s f =>
    have := decEqList e f
    decidable_of_iff (n = m ∧ r = s ∧ e = f) (by simp)
  | .gated n s c i, .gated m t d j =>
    have := decEq i j
    decidable_of_iff (n = m ∧ s = t ∧ c = d ∧ i = j) (by simp)
  | .scalar .., .choice .. | .scalar .., .list .. | .scalar .., .gated .. => .isFalse nofun
  | .choice .., .scalar .. | .choice .., .list .. | .choice .., .gated .. => .isFalse nofun
  | .list .., .scalar .. | .list .., .choice .. | .list .., .gated .. => .isFalse nofun
  | .gated .., .scalar .. | .gated .., .choice .. | .gated .., .list .. => .isFalse nofun

def decEqList : (a b : List FieldDecl) → Decidable (a = b)
  | [], [] => .isTrue rfl
  | a :: as, b :: bs =>
    have := decEq a b
    have := decEqList as bs
    decidable_of_iff (a = b ∧ as = bs) (by simp)
  | [], _ :: _ | _ :: _, [] => .isFalse nofun

end

instance : DecidableEq FieldDecl := decEq

def name : FieldDecl → String
  | scalar n _ | choice n _ | list n _ _ | gated n _ _ _ => n

def kind : FieldDecl → FieldKind
  | scalar _ initial => initial.kind
  | choice .. => .choice
  | list _ .free _ => .list
  | list .. => .link
  | gated _ _ condition _ => condition.kind

def keyword (decl : FieldDecl) : String :=
  decl.kind.keyword

/-- The field that this one depends on, by name. A list that follows the children of its node
depends on no field. -/
def dependency? : FieldDecl → Option String
  | list _ (.field source) _ => some source
  | gated _ source _ _ => some source
  | _ => none

def element? : FieldDecl → Option (List FieldDecl)
  | list _ _ element => some element
  | _ => none

def inner? : FieldDecl → Option FieldDecl
  | gated _ _ _ inner => some inner
  | _ => none

/-- Whether one word says all about the field but its name. -/
def isScalar : FieldDecl → Bool
  | scalar .. => true
  | _ => false

mutual

def weight : FieldDecl → Nat
  | scalar .. => 1
  | choice .. => 1
  | list _ _ element => 1 + weights element
  | gated _ _ _ inner => 1 + weight inner

def weights : List FieldDecl → Nat
  | [] => 0
  | decl :: rest => weight decl + weights rest

end

theorem weight_pos (decl : FieldDecl) : 0 < decl.weight := by
  cases decl <;> unfold weight <;> omega

end FieldDecl

/-- A kind of node: its category, its wire symbol, the children it takes and the fields it has. No
upper bound means any number of children. -/
structure NodeKind where
  name : String
  symbol : String
  category : Category
  childCategory : Category
  minChildren : Nat
  maxChildren : Option Nat
  fields : List FieldDecl
deriving DecidableEq, Repr

end LightTree
