import EmbedSanitizer.DebugInfo
import EmbedSanitizer.Parentheses
import Mathlib.Data.Set.Defs

namespace EmbedSanitizer
open Strings Parentheses

inductive Qualifier where
  | const
  | volatile
  | restrict
  | lvalueRef
  | rvalueRef
  deriving DecidableEq, Repr

def Qualifier.text : Qualifier → Text
  | .const => " const".toList
  | .volatile => " volatile".toList
  | .restrict => " restrict".toList
  | .lvalueRef => " &".toList
  | .rvalueRef => " &&".toList

-- What a demangler writes for a function: its qualified name, the parameters in
-- parentheses, and the qualifiers of a member function.
structure DemangledName where
  qualified : Text
  parameters : Text
  qualifiers : List Qualifier
  named : qualified ≠ []
  matched : Balanced '(' ')' parameters

def DemangledName.text (name : DemangledName) : Text :=
  name.qualified ++ '(' :: (name.parameters ++ ')' :: name.qualifiers.flatMap Qualifier.text)

section Names
variable {cxaDemangle : Demangler} {F : Text} {d e : DemangledName}

theorem qualifiers_plain (qualifiers : List Qualifier) : ')' ∉ qualifiers.flatMap Qualifier.text := by
  intro member
  obtain ⟨q,_,inside⟩ := List.mem_flatMap.mp member
  cases q <;> exact absurd inside (by decide)

-- The qualified name is a part of the demangled one that no other reading gives.
theorem qualified_unique (same : d.text = e.text) : d.qualified = e.qualified := by
  unfold DemangledName.text at same
  have closing : (d.qualified ++ '(' :: d.parameters) ++ ')' :: d.qualifiers.flatMap Qualifier.text =
      (e.qualified ++ '(' :: e.parameters) ++ ')' :: e.qualifiers.flatMap Qualifier.text := by
    simpa only [List.append_assoc,List.cons_append] using same
  exact opening_unique d.matched e.matched (last_unique (qualifiers_plain _) (qualifiers_plain _) closing)

theorem nameBeforeParenthesis_text (d : DemangledName) : nameBeforeParenthesis d.text = d.qualified ↔ '(' ∉ d.qualified := by
  unfold nameBeforeParenthesis
  have present : ['('] <:+: d.text := (List.singleton_infix_iff _ _).mpr (by simp [DemangledName.text])
  obtain ⟨i,found⟩ := Option.isSome_iff_exists.mp (find_isSome.mpr present)
  rw [found]
  exact take_find found

theorem funcName_demangled (demangled : cxaDemangle F = some d.text) : getFuncName cxaDemangle F = nameBeforeParenthesis d.text := by
  simp [getFuncName,demangleName,demangled]

theorem funcNameStr_same (cxaDemangle : Demangler) (F : Text) : getFuncNameStr cxaDemangle F = getFuncName cxaDemangle F := rfl

theorem funcName_qualified (demangled : cxaDemangle F = some d.text) : getFuncName cxaDemangle F = d.qualified ↔ '(' ∉ d.qualified := by
  rw [funcName_demangled demangled]
  exact nameBeforeParenthesis_text d

end Names

-- The functions of a program are named by their qualified names exactly when no such
-- name has a parenthesis.
theorem function_names_qualified (cxaDemangle : Demangler) (S : Set Text) :
    ((∀ F ∈ S, ∀ d : DemangledName, cxaDemangle F = some d.text →
        getFuncName cxaDemangle F = d.qualified ∧ getFuncNameStr cxaDemangle F = d.qualified ∧ getFuncName cxaDemangle F ≠ []) ∧
      ∀ F ∈ S, ∀ G ∈ S, ∀ d e : DemangledName, cxaDemangle F = some d.text → cxaDemangle G = some e.text →
        d.qualified ≠ e.qualified → getFuncName cxaDemangle F ≠ getFuncName cxaDemangle G) ↔
      ∀ F ∈ S, ∀ d : DemangledName, cxaDemangle F = some d.text → '(' ∉ d.qualified := by
  constructor
  · rintro ⟨exact,_⟩ F member d demangled
    exact (funcName_qualified demangled).mp (exact F member d demangled).1
  · intro plain
    have exact : ∀ F ∈ S, ∀ d : DemangledName, cxaDemangle F = some d.text → getFuncName cxaDemangle F = d.qualified :=
      fun F member d demangled => (funcName_qualified demangled).mpr (plain F member d demangled)
    refine ⟨?_,?_⟩
    · intro F member d demangled
      have name := exact F member d demangled
      exact ⟨name,(funcNameStr_same cxaDemangle F).trans name,name ▸ d.named⟩
    · intro F memberF G memberG d e demangledF demangledG different
      rw [exact F memberF d demangledF,exact G memberG e demangledG]
      exact different

section Parenthesized

def anonymousF : DemangledName := ⟨"(anonymous namespace)::f".toList,"int".toList,[],by decide,by decide⟩

def anonymousG : DemangledName := ⟨"(anonymous namespace)::g".toList,"int".toList,[],by decide,by decide⟩

def callOperator : DemangledName := ⟨"T::operator()".toList,"int".toList,[.const],by decide,by decide⟩

def mangledF : Text := "_ZN12_GLOBAL__N_11fEi".toList

def mangledG : Text := "_ZN12_GLOBAL__N_11gEi".toList

def mangledOperator : Text := "_ZNK1TclEi".toList

def parenthesizedNames : Demangler := fun name =>
  if name = mangledF then some anonymousF.text
  else if name = mangledG then some anonymousG.text
  else if name = mangledOperator then some callOperator.text
  else none

-- Functions of an unnamed namespace have no name left, a call operator loses its end.
theorem parenthesized_names_cut :
    (parenthesizedNames mangledF = some anonymousF.text ∧ getFuncName parenthesizedNames mangledF = []) ∧
    (parenthesizedNames mangledG = some anonymousG.text ∧ getFuncName parenthesizedNames mangledG = []) ∧
    anonymousF.qualified ≠ anonymousG.qualified ∧
    parenthesizedNames mangledOperator = some callOperator.text ∧
    getFuncNameStr parenthesizedNames mangledOperator = "T::operator".toList ∧ callOperator.qualified = "T::operator()".toList := by decide

end Parenthesized

end EmbedSanitizer
