import JsonStream.Grammar

/-!
# Documents that say the same

Two documents, each with options of its own, may differ in white space, in the escapes that spell the characters of
a string, in how a number is spelled, and in the sign of a zero, and still say the same. Here this is said of the two
texts, one part after the other, and not of what they are decoded to. `Grammar.Documents.Alike` has no value in it.
-/

namespace JsonStream.Grammar

mutual

/-- Two spellings inside `depth` containers that say the same. -/
inductive Alike (o o' : Options) : Nat → Bytes → Bytes → Prop
  | keyword {depth : Nat} (word : Keyword) : Alike o o' depth word.spelling word.spelling
  | number {depth : Nat} {s s' : Bytes} {x x' : Binary64} (left : Number o s x) (right : Number o' s' x')
    (same : x.same x' = true) : Alike o o' depth s s'
  | string {depth : Nat} {s s' text : Bytes} (left : Quoted o s text) (right : Quoted o' s' text) :
    Alike o o' depth s s'
  | emptyArray {depth : Nat} {s s' : Bytes} (room : depth < o.maxDepth) (room' : depth < o'.maxDepth)
    (blank : Blank o s) (blank' : Blank o' s') :
    Alike o o' depth (Byte.openBracket :: s ++ [Byte.closeBracket]) (Byte.openBracket :: s' ++ [Byte.closeBracket])
  | array {depth : Nat} {s s' : Bytes} (room : depth < o.maxDepth) (room' : depth < o'.maxDepth)
    (elements : AlikeElements o o' (depth + 1) s s') :
    Alike o o' depth (Byte.openBracket :: s ++ [Byte.closeBracket]) (Byte.openBracket :: s' ++ [Byte.closeBracket])
  | emptyObject {depth : Nat} {s s' : Bytes} (room : depth < o.maxDepth) (room' : depth < o'.maxDepth)
    (blank : Blank o s) (blank' : Blank o' s') :
    Alike o o' depth (Byte.openBrace :: s ++ [Byte.closeBrace]) (Byte.openBrace :: s' ++ [Byte.closeBrace])
  | object {depth : Nat} {s s' : Bytes} (room : depth < o.maxDepth) (room' : depth < o'.maxDepth)
    (inside : AlikeMembers o o' (depth + 1) s s') :
    Alike o o' depth (Byte.openBrace :: s ++ [Byte.closeBrace]) (Byte.openBrace :: s' ++ [Byte.closeBrace])

inductive AlikeElements (o o' : Options) : Nat → Bytes → Bytes → Prop
  | one {depth : Nat} {a s b a' s' b' : Bytes} (before : Blank o a) (before' : Blank o' a')
    (value : Alike o o' depth s s') (after : Blank o b) (after' : Blank o' b') :
    AlikeElements o o' depth (a ++ s ++ b) (a' ++ s' ++ b')
  | more {depth : Nat} {a s b rest a' s' b' rest' : Bytes} (before : Blank o a) (before' : Blank o' a')
    (value : Alike o o' depth s s') (after : Blank o b) (after' : Blank o' b')
    (others : AlikeElements o o' depth rest rest') :
    AlikeElements o o' depth (a ++ s ++ b ++ Byte.comma :: rest) (a' ++ s' ++ b' ++ Byte.comma :: rest')

inductive AlikeMembers (o o' : Options) : Nat → Bytes → Bytes → Prop
  | one {depth : Nat} {a k b c s d a' k' b' c' s' d' : Bytes} {name : Bytes} (before : Blank o a)
    (before' : Blank o' a') (quoted : Quoted o k name) (quoted' : Quoted o' k' name) (beforeColon : Blank o b)
    (beforeColon' : Blank o' b') (afterColon : Blank o c) (afterColon' : Blank o' c')
    (value : Alike o o' depth s s') (after : Blank o d) (after' : Blank o' d') :
    AlikeMembers o o' depth (a ++ k ++ b ++ Byte.colon :: (c ++ s ++ d))
      (a' ++ k' ++ b' ++ Byte.colon :: (c' ++ s' ++ d'))
  | more {depth : Nat} {a k b c s d rest a' k' b' c' s' d' rest' : Bytes} {name : Bytes} (before : Blank o a)
    (before' : Blank o' a') (quoted : Quoted o k name) (quoted' : Quoted o' k' name) (beforeColon : Blank o b)
    (beforeColon' : Blank o' b') (afterColon : Blank o c) (afterColon' : Blank o' c')
    (value : Alike o o' depth s s') (after : Blank o d) (after' : Blank o' d')
    (others : AlikeMembers o o' depth rest rest') :
    AlikeMembers o o' depth (a ++ k ++ b ++ Byte.colon :: (c ++ s ++ d ++ Byte.comma :: rest))
      (a' ++ k' ++ b' ++ Byte.colon :: (c' ++ s' ++ d' ++ Byte.comma :: rest'))

end

/-- Documents that say the same. -/
def AlikeDocuments (o o' : Options) (s s' : Bytes) : Prop :=
  ∃ before value after before' value' after', s = before ++ value ++ after ∧ s' = before' ++ value' ++ after' ∧
    Blank o before ∧ Blank o' before' ∧ Alike o o' 0 value value' ∧ Blank o after ∧ Blank o' after'

end JsonStream.Grammar
