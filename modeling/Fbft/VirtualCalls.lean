import Mathlib.Logic.Basic

/-! Calls of member functions in C++, with single inheritance and one argument. The name is
looked up in the static class and its bases, and the first class that declares it hides what
its own bases declare. Among the declarations found the type of the argument selects one. If
that is virtual, the dynamic class is searched for the nearest declaration with the same type:
only this replaces it. -/
namespace VirtualCalls

/-- The declarations of a program. -/
structure Hierarchy (Class Name Param : Type) where
  /-- The class itself and its bases, in the order in which they are searched. -/
  bases : Class → List Class
  /-- The types of the parameter in the declarations of a name. -/
  declares : Class → Name → List Param
  /-- A member declared virtual. -/
  virtuals : Class → Name → Param → Bool
  /-- Implicit conversions of an argument. -/
  converts : Param → Param → Bool

namespace Hierarchy

variable {Class Name Param : Type} [DecidableEq Param] (h : Hierarchy Class Name Param)

/-- The class whose declarations of a name are visible. -/
def lookup (static : Class) (name : Name) : Option Class :=
  (h.bases static).find? fun c => h.declares c name ≠ []

/-- An exact match, or the only declaration that takes the argument. -/
def resolve (params : List Param) (argument : Param) : Option Param :=
  if argument ∈ params then some argument
  else
    match params.filter fun param => h.converts argument param with
    | [param] => some param
    | _ => none

/-- The final overrider of a virtual member. -/
def overrider (dynamic : Class) (name : Name) (param : Param) : Option Class :=
  (h.bases dynamic).find? fun c => param ∈ h.declares c name

/-- The class whose member is called, with the type of its parameter; `none` when the call does
not compile. -/
def call (static dynamic : Class) (name : Name) (argument : Param) : Option (Class × Param) := do
  let visible ← h.lookup static name
  let param ← h.resolve (h.declares visible name) argument
  if h.virtuals visible name param = true then
    let final ← h.overrider dynamic name param
    return (final, param)
  else return (visible, param)

variable {h} {static dynamic base : Class} {name : Name} {argument param : Param}
  {before after : List Class}

omit [DecidableEq Param] in
theorem lookup_self (bases : h.bases static = static :: after) (declared : h.declares static name ≠ []) :
    h.lookup static name = some static := by
  rw [lookup, bases, List.find?_cons, decide_eq_true declared]

/-- A declaration with one parameter is selected by every argument that converts to it. -/
theorem resolve_singleton (converts : argument = param ∨ h.converts argument param = true) :
    h.resolve [param] argument = some param := by
  unfold resolve
  split
  · rename_i exact
    rw [List.mem_singleton.mp exact]
  · rename_i other
    have converts := converts.resolve_left fun same => other (List.mem_singleton.mpr same)
    rw [List.filter_cons_of_pos converts, List.filter_nil]

/-- Declarations of the same name that take something else replace nothing. -/
theorem overrider_eq (bases : h.bases dynamic = before ++ base :: after)
    (others : ∀ c ∈ before, param ∉ h.declares c name) (declared : param ∈ h.declares base name) :
    h.overrider dynamic name param = some base := by
  rw [overrider, bases, List.find?_append, List.find?_eq_none.mpr fun c member => by
    simpa using others c member, Option.none_or, List.find?_cons, decide_eq_true declared]

/-- A call through a base runs the member of the base, unless a class below declares it with the
type of the base. -/
theorem call_base (visible : h.bases base = base :: after)
    (only : h.declares base name = [param])
    (converts : argument = param ∨ h.converts argument param = true)
    (virtual : h.virtuals base name param = true) (bases : h.bases dynamic = before ++ base :: after)
    (others : ∀ c ∈ before, param ∉ h.declares c name) :
    h.call base dynamic name argument = some (base, param) := by
  have found : h.lookup base name = some base :=
    lookup_self visible (by rw [only]; exact List.cons_ne_nil _ _)
  have final := overrider_eq bases others (by rw [only]; exact List.mem_singleton_self param)
  simp only [call, found, only, Option.bind_eq_bind, Option.bind_some, resolve_singleton converts,
    virtual, if_true, final]
  rfl

/-- On an object whose class is known the declarations of the class hide those of its bases. -/
theorem call_own (bases : h.bases static = static :: after) (only : h.declares static name = [param])
    (converts : argument = param ∨ h.converts argument param = true) :
    h.call static static name argument = some (static, param) := by
  have found : h.lookup static name = some static :=
    lookup_self bases (by rw [only]; exact List.cons_ne_nil _ _)
  have final : h.overrider static name param = some static :=
    overrider_eq (show h.bases static = [] ++ static :: after from bases) (by simp)
      (by rw [only]; exact List.mem_singleton_self param)
  simp only [call, found, only, Option.bind_eq_bind, Option.bind_some, resolve_singleton converts,
    final]
  split <;> rfl

end Hierarchy

end VirtualCalls
