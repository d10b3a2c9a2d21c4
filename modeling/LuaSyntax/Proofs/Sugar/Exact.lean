import LuaSyntax.Proofs.Sugar.Definition
import LuaSyntax.Proofs.View.Rows

/-! # Short forms and what they stand for

Each occurrence of a short form in a parsed source may be written out, with a space on either side, and the
source still has the same tree.
-/
namespace LuaSyntax

/-- The short forms of a source with the tree `root` may be written out, one at a time. -/
structure Bytes.Sugar (source : Bytes) (root : Node) : Prop where
  /-- The only argument of a call that ends with it is a string or a table without parentheses. -/
  argument : ∀ n a : Node, n.Inside root → a.EndsCall n →
    ∃ root', (source.replace a.span (.ofString " (" ++ source.slice a.span ++ .ofString ") ")).AcceptedAs root' ∧
      root'.EqBare root
  /-- The key of an index ends with it if it is a name after a dot. -/
  suffix : ∀ (object : Node) (name : Bytes) (key span : Span),
    (⟨.index object ⟨.string name, key⟩, span⟩ : Node).Inside root → key.endPos = span.endPos →
    ∃ dot, source.OnlyTrivia object.span.endPos dot ∧ source[dot]? = some '.'.toUInt8 ∧
      source.OnlyTrivia (dot + 1) (key.pos - 1) ∧
      ∃ root', (source.replace ⟨dot + 1, span.endPos⟩ (.ofString " [\"" ++ name ++ .ofString "\"] ")).AcceptedAs root' ∧
        root'.EqBare root
  /-- The key of a pair begins with it if it is a name. -/
  field : ∀ (name : Bytes) (value : Node) (key span : Span),
    (⟨.pair ⟨.string name, key⟩ value, span⟩ : Node).Inside root → key.pos = span.pos →
    ∃ root', (source.replace span (.ofString " [\"" ++ name ++ .ofString "\"] = " ++ source.slice value.span ++
        .ofString " ")).AcceptedAs root' ∧ root'.EqBare root
  /-- The values of an assignment begin with it if it is a function statement. -/
  function : ∀ (target body : Node) (parameters : List Node) (targets values function span : Span),
    (⟨.assignment ⟨.targetList [target], targets⟩ ⟨.valueList [⟨.function parameters body false, function⟩], values⟩,
      span⟩ : Node).Inside root → values.pos = span.pos →
    ∃ root', (source.replace span (.ofString " " ++ source.slice target.span ++ .ofString " = function" ++
        source.slice ⟨target.span.endPos + 1, span.endPos⟩ ++ .ofString " ")).AcceptedAs root' ∧ root'.EqBare root
  /-- Among the parameters of a method is `self`, which has to be written out; that it is a method is lost. -/
  method : ∀ (object body : Node) (name : Bytes) (parameters : List Node) (key path targets values function span : Span),
    (⟨.assignment ⟨.targetList [⟨.index object ⟨.string name, key⟩, path⟩], targets⟩
      ⟨.valueList [⟨.function parameters body true, function⟩], values⟩, span⟩ : Node).Inside root →
    values.pos = span.pos →
    ∃ opening, source.OnlyTrivia key.endPos opening ∧ source[opening]? = some '('.toUInt8 ∧
      ∃ root', (source.replace span (.ofString " " ++ source.slice object.span ++ .ofString "." ++ name ++
          .ofString " = function(self" ++ (if parameters.length = 1 then [] else Bytes.ofString ", ") ++
          source.slice ⟨opening + 2, span.endPos⟩ ++ .ofString " ")).AcceptedAs root' ∧ root'.outline = root.outline

section Sources
variable {source : Bytes} {limit : Nat} {filename : String} {root : Node}

/-- The short forms of any parsed source may be written out. -/
theorem parse_sugar (h : parse source limit filename = .ok root) : source.Sugar root where
  argument _ _ hn ha := parse_parenthesized h hn ha
  suffix _ _ _ _ hn he := parse_bracketed h hn he
  field _ _ _ _ hn hp := parse_keyed h hn hp
  function _ _ _ _ _ _ _ hn hp := parse_assigned h hn hp
  method _ _ _ _ _ _ _ _ _ _ hn hp := parse_unmethod h hn hp

/-- All five short forms, each written out in turn. -/
theorem parse_sugar_method :
    ∃ root, parse (.ofString "f\x7bb=c.d\x7dfunction a()end function a:m()end") 3 "" = .ok root ∧
    (∃ root', (Bytes.ofString "f (\x7bb=c.d\x7d) function a()end function a:m()end").AcceptedAs root' ∧ root'.EqBare root) ∧
    (∃ root', (Bytes.ofString "f\x7bb=c [\"d\"] \x7dfunction a()end function a:m()end").AcceptedAs root' ∧
      root'.EqBare root) ∧
    (∃ root', (Bytes.ofString "f\x7b [\"b\"] = c.d \x7dfunction a()end function a:m()end").AcceptedAs root' ∧
      root'.EqBare root) ∧
    (∃ root', (Bytes.ofString "f\x7bb=c.d\x7d a = function()end  function a:m()end").AcceptedAs root' ∧ root'.EqBare root) ∧
    ∃ root', (Bytes.ofString "f\x7bb=c.d\x7dfunction a()end  a.m = function(self)end ").AcceptedAs root' ∧
      root'.outline = root.outline := by
  let value : Node := ⟨.index ⟨.name (.ofString "c"), 5, 5⟩ ⟨.string (.ofString "d"), 7, 7⟩, 5, 7⟩
  let field : Node := ⟨.pair ⟨.string (.ofString "b"), 3, 3⟩ value, 3, 7⟩
  let argument : Node := ⟨.table [field], 2, 8⟩
  let call : Node := ⟨.call ⟨.name (.ofString "f"), 1, 1⟩ [argument], 1, 8⟩
  let function : Node := ⟨.assignment ⟨.targetList [⟨.name (.ofString "a"), 18, 18⟩], 18, 18⟩
    ⟨.valueList [⟨.function [] ⟨.block [], 21, 21⟩ false, 9, 23⟩], 9, 23⟩, 9, 23⟩
  let path : Node := ⟨.index ⟨.name (.ofString "a"), 34, 34⟩ ⟨.string (.ofString "m"), 36, 36⟩, 34, 36⟩
  let method : Node := ⟨.assignment ⟨.targetList [path], 34, 36⟩
    ⟨.valueList [⟨.function [⟨.name (.ofString "self"), 37, 37⟩] ⟨.block [], 39, 39⟩ true, 25, 41⟩], 25, 41⟩, 25, 41⟩
  let root : Node := ⟨.block [call, function, method], 1, 41⟩
  have hparse : parse (.ofString "f\x7bb=c.d\x7dfunction a()end function a:m()end") 3 "" = .ok root :=
    ok_of_toOption (by decide +kernel)
  have hcall : call.Inside root := .inner (.head _) .root
  have hbelow {n : Node} (h : n.Inside field) : n.Inside root :=
    .inner (.head _) (.inner (.tail _ (.head _)) (.inner (.head _) h))
  have hfunction : function.Inside root := .inner (.tail _ (.head _)) .root
  have hmethod : method.Inside root := .inner (.tail _ (.tail _ (.head _))) .root
  obtain ⟨hcalls, hsuffixes, hfields, hfunctions, hmethods⟩ := parse_sugar hparse
  obtain ⟨dot, hbehind, -, hbefore, hindex⟩ := hsuffixes _ _ _ _ (hbelow (.inner (.tail _ (.head _)) .root)) rfl
  obtain ⟨opening, hopening, hbyte, hplain⟩ := hmethods _ _ _ _ _ _ _ _ _ _ hmethod rfl
  obtain rfl : dot = 5 := Nat.le_antisymm (Nat.le_of_succ_le_succ hbefore.le) hbehind.le
  have hsecond : ∀ i < 41, 36 ≤ i → (Bytes.ofString "f\x7bb=c.d\x7dfunction a()end function a:m()end")[i]? = some '('.toUInt8 →
      i = 36 := by decide +kernel
  obtain rfl := hsecond opening (List.getElem?_eq_some_iff.mp hbyte).1 hopening.le hbyte
  have hspelled {text text' : Bytes} {P : Node → Prop} (h : ∃ root', text.AcceptedAs root' ∧ P root') (he : text = text') :
      ∃ root', text'.AcceptedAs root' ∧ P root' := he ▸ h
  refine ⟨root, hparse, ?_, ?_, ?_, ?_, ?_⟩
  · exact hspelled (hcalls _ _ hcall (.call rfl)) (by decide +kernel)
  · exact hspelled hindex (by decide +kernel)
  · exact hspelled (hfields _ _ _ _ (hbelow .root) rfl) (by decide +kernel)
  · exact hspelled (hfunctions _ _ _ _ _ _ _ hfunction rfl) (by decide +kernel)
  · exact hspelled hplain (by decide +kernel)

end Sources

end LuaSyntax
