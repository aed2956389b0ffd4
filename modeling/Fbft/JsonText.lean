import Fbft.CppString
import Fbft.Json

/-! Texts of JSON values. Where a value ends is seen from its text, so that the text of a value
without truth values, real numbers and negative numbers is that of no other such value. -/
namespace Json

/-- A quote or a backslash has a backslash before it. -/
def escape (c : Char) : List Char := if c = '"' ∨ c = '\\' then ['\\', c] else [c]

def quote (text : String) : List Char := '"' :: (text.toList.flatMap escape ++ ['"'])

mutual

def write : Json → List Char
  | .null => ['n', 'u', 'l', 'l']
  | .bool b => (toString b).toList
  | .int k => k.repr.toList
  | .real _ printed => printed.toList
  | .str text => quote text
  | .arr elements => '[' :: writeElements [] elements
  | .obj members => '{' :: writeMembers [] members

/-- The elements after the first have a separator before them. -/
def writeElements (separator : List Char) : List Json → List Char
  | [] => [']']
  | e :: elements => separator ++ (write e ++ writeElements [',', ' '] elements)

def writeMembers (separator : List Char) : List (String × Json) → List Char
  | [] => ['}']
  | (name, e) :: members =>
    separator ++ (quote name ++ (':' :: (write e ++ writeMembers [',', ' '] members)))

end

/-- Values whose texts tell them apart. -/
inductive Written : Json → Prop where
  | null : Written .null
  | int (k : ℕ) : Written (.int k)
  | str (text : String) : Written (.str text)
  | arr {elements : List Json} : (∀ e ∈ elements, Written e) → Written (.arr elements)
  | obj {members : List (String × Json)} : (∀ m ∈ members, Written m.2) → Written (.obj members)

/-- What can follow a number. -/
def Ends (rest : List Char) : Prop := ∀ c ∈ rest.head?, c.isDigit = false

theorem ends_nil : Ends [] := by simp [Ends]

theorem ends_writeElements (elements : List Json) {a : List Char} :
    Ends (writeElements [',', ' '] elements ++ a) := by
  cases elements <;> simp [Ends, writeElements]

theorem ends_writeMembers (members : List (String × Json)) {a : List Char} :
    Ends (writeMembers [',', ' '] members ++ a) := by
  cases members <;> simp [Ends, writeMembers]

theorem takeWhile_repr (k : ℕ) {rest : List Char} (ends : Ends rest) :
    (k.repr.toList ++ rest).takeWhile Char.isDigit = k.repr.toList := by
  have digits : ∀ c ∈ k.repr.toList, c.isDigit = true := by
    intro c member
    rw [Nat.repr, String.toList_ofList] at member
    exact Nat.isDigit_of_mem_toDigits (by decide) (by decide) member
  have stops : rest.takeWhile Char.isDigit = [] := by
    cases rest with
    | nil => rfl
    | cons c rest => exact List.takeWhile_cons_of_neg (by simp [ends c rfl])
  rw [List.takeWhile_append_of_pos digits, stops, List.append_nil]

theorem repr_append {k k' : ℕ} {a b : List Char} (ends : Ends a) (ends' : Ends b)
    (same : k.repr.toList ++ a = k'.repr.toList ++ b) : k = k' ∧ a = b := by
  have taken := congrArg (List.takeWhile Char.isDigit) same
  rw [takeWhile_repr k ends, takeWhile_repr k' ends'] at taken
  refine ⟨?_, List.append_cancel_left (taken ▸ same)⟩
  have digits := congrArg CppString.digitsValue taken
  simpa [Nat.repr, CppString.digitsValue_toDigits] using digits

theorem escape_ne_quote (c : Char) (a b : List Char) : escape c ++ a ≠ '"' :: b := by
  unfold escape
  split
  · simp
  · rename_i ordinary
    rw [not_or] at ordinary
    simp [ordinary.1]

theorem escape_append {c d : Char} {a b : List Char} (same : escape c ++ a = escape d ++ b) :
    c = d ∧ a = b := by
  unfold escape at same
  split at same <;> split at same <;> simp only [List.cons_append, List.nil_append,
    List.cons.injEq] at same
  · exact same.2
  · rename_i ordinary
    exact absurd (Or.inr same.1.symm) ordinary
  · rename_i ordinary _
    exact absurd (Or.inr same.1) ordinary
  · exact same

theorem flatMap_escape_append {s t a b : List Char}
    (same : s.flatMap escape ++ '"' :: a = t.flatMap escape ++ '"' :: b) : s = t ∧ a = b := by
  induction s generalizing t with
  | nil =>
    cases t with
    | nil => exact ⟨rfl, (List.cons.inj same).2⟩
    | cons d t =>
      rw [List.flatMap_cons, List.append_assoc] at same
      exact absurd same.symm (escape_ne_quote d _ _)
  | cons c s ih =>
    rw [List.flatMap_cons, List.append_assoc] at same
    cases t with
    | nil => exact absurd same (escape_ne_quote c _ _)
    | cons d t =>
      rw [List.flatMap_cons, List.append_assoc] at same
      obtain ⟨rfl, rest⟩ := escape_append same
      obtain ⟨rfl, rfl⟩ := ih rest
      exact ⟨rfl, rfl⟩

theorem quote_append {s t : String} {a b : List Char} (same : quote s ++ a = quote t ++ b) :
    s = t ∧ a = b := by
  simp only [quote, List.cons_append, List.append_assoc, List.cons.injEq, true_and,
    List.nil_append] at same
  obtain ⟨texts, rest⟩ := flatMap_escape_append same
  exact ⟨String.toList_inj.mp texts, rest⟩

def Starts (j : Json) (c : Char) : Prop :=
  match j with
  | .null => c = 'n'
  | .int _ => c.isDigit = true
  | .str _ => c = '"'
  | .arr _ => c = '['
  | .obj _ => c = '{'
  | _ => True

theorem write_int (k : ℕ) : write (.int k) = k.repr.toList := by rw [write]; rfl

theorem Written.exists_write {j : Json} (written : Written j) :
    ∃ c text, write j = c :: text ∧ Starts j c := by
  cases written with
  | null => exact ⟨_, _, by rw [write], rfl⟩
  | str text => exact ⟨_, _, by rw [write, quote], rfl⟩
  | arr => exact ⟨_, _, by rw [write], rfl⟩
  | obj => exact ⟨_, _, by rw [write], rfl⟩
  | int k =>
    obtain ⟨c, text, digits⟩ := List.exists_cons_of_ne_nil (Nat.toDigits_ne_nil (n := k) (b := 10))
    refine ⟨c, text, ?_, ?_⟩
    · rw [write_int, Nat.repr, String.toList_ofList, digits]
    · exact Nat.isDigit_of_mem_toDigits (by decide) (by decide) (digits ▸ List.mem_cons_self)

/-- A value that ends before a rest is read in one way. -/
def Reads (e : Json) : Prop :=
  ∀ e' a b, Written e' → Ends a → Ends b → write e ++ a = write e' ++ b → e = e' ∧ a = b

theorem writeElements_append {elements elements' : List Json} {separator a b : List Char}
    (reads : ∀ e ∈ elements, Written e ∧ Reads e) (written : ∀ e ∈ elements', Written e)
    (separates : separator = [] ∨ separator = [',', ' '])
    (same : writeElements separator elements ++ a = writeElements separator elements' ++ b) :
    elements = elements' ∧ a = b := by
  have closes : ∀ e, Written e → ∀ x y, separator ++ (write e ++ x) ≠ ']' :: y := by
    intro e written x y same
    obtain ⟨c, text, shape, starts⟩ := written.exists_write
    rcases separates with rfl | rfl
    · rw [shape, List.nil_append, List.cons_append, List.cons.injEq] at same
      obtain ⟨rfl, -⟩ := same
      cases written <;> simp [Starts] at starts
    · simp at same
  induction elements generalizing elements' separator with
  | nil =>
    cases elements' with
    | nil => simpa [writeElements] using same
    | cons e' elements' =>
      rw [writeElements, writeElements, List.append_assoc, List.append_assoc] at same
      exact absurd same.symm (closes e' (written e' List.mem_cons_self) _ _)
  | cons e elements ih =>
    obtain ⟨first, rest⟩ := List.forall_mem_cons.mp reads
    cases elements' with
    | nil =>
      rw [writeElements, writeElements, List.append_assoc, List.append_assoc] at same
      exact absurd same (closes e first.1 _ _)
    | cons e' elements' =>
      obtain ⟨first', rest'⟩ := List.forall_mem_cons.mp written
      rw [writeElements, writeElements, List.append_assoc, List.append_assoc, List.append_assoc,
        List.append_assoc] at same
      obtain ⟨rfl, tails⟩ := first.2 e' _ _ first' (ends_writeElements _) (ends_writeElements _)
        (List.append_cancel_left same)
      obtain ⟨rfl, rfl⟩ := ih rest rest' (Or.inr rfl) tails (by simp)
      exact ⟨rfl, rfl⟩

theorem writeMembers_append {members members' : List (String × Json)} {separator a b : List Char}
    (reads : ∀ m ∈ members, Reads m.2) (written : ∀ m ∈ members', Written m.2)
    (separates : separator = [] ∨ separator = [',', ' '])
    (same : writeMembers separator members ++ a = writeMembers separator members' ++ b) :
    members = members' ∧ a = b := by
  have closes : ∀ name x y, separator ++ (quote name ++ x) ≠ '}' :: y := by
    rcases separates with rfl | rfl <;> simp [quote]
  induction members generalizing members' separator with
  | nil =>
    cases members' with
    | nil => simpa [writeMembers] using same
    | cons m' members' =>
      rw [writeMembers, writeMembers, List.append_assoc, List.append_assoc] at same
      exact absurd same.symm (closes _ _ _)
  | cons m members ih =>
    obtain ⟨first, rest⟩ := List.forall_mem_cons.mp reads
    cases members' with
    | nil =>
      rw [writeMembers, writeMembers, List.append_assoc, List.append_assoc] at same
      exact absurd same (closes _ _ _)
    | cons m' members' =>
      obtain ⟨first', rest'⟩ := List.forall_mem_cons.mp written
      obtain ⟨name, e⟩ := m
      obtain ⟨name', e'⟩ := m'
      simp only [writeMembers, List.append_assoc, List.cons_append] at same
      obtain ⟨rfl, values⟩ := quote_append (List.append_cancel_left same)
      obtain ⟨rfl, tails⟩ := first e' _ _ first' (ends_writeMembers _) (ends_writeMembers _)
        (List.cons.inj values).2
      obtain ⟨rfl, rfl⟩ := ih rest rest' (Or.inr rfl) tails (by simp [quote])
      exact ⟨rfl, rfl⟩

theorem Written.starts_append {e e' : Json} (written : Written e) (written' : Written e')
    {a b : List Char} (same : write e ++ a = write e' ++ b) : ∃ c, Starts e c ∧ Starts e' c := by
  obtain ⟨c, text, shape, starts⟩ := written.exists_write
  obtain ⟨c', text', shape', starts'⟩ := written'.exists_write
  rw [shape, shape', List.cons_append, List.cons_append, List.cons.injEq] at same
  obtain ⟨rfl, -⟩ := same
  exact ⟨c, starts, starts'⟩

theorem Written.reads {e : Json} (written : Written e) : Reads e := by
  induction written with
  | null =>
    intro e' a b written' _ _ same
    obtain ⟨c, rfl, starts⟩ := Written.null.starts_append written' same
    cases written' with
    | null => exact ⟨rfl, List.append_cancel_left same⟩
    | int => exact absurd starts (by simp [Starts])
    | _ => cases starts
  | int k =>
    intro e' a b written' ends ends' same
    obtain ⟨c, starts, starts'⟩ := (Written.int k).starts_append written' same
    cases written' with
    | int k' =>
      rw [write_int, write_int] at same
      obtain ⟨rfl, rfl⟩ := repr_append ends ends' same
      exact ⟨rfl, rfl⟩
    | _ =>
      cases starts'
      exact absurd starts (by simp [Starts])
  | str text =>
    intro e' a b written' _ _ same
    obtain ⟨c, rfl, starts⟩ := (Written.str text).starts_append written' same
    cases written' with
    | str text' =>
      rw [write, write] at same
      obtain ⟨rfl, rfl⟩ := quote_append same
      exact ⟨rfl, rfl⟩
    | int => exact absurd starts (by simp [Starts])
    | _ => cases starts
  | arr written ih =>
    intro e' a b written' _ _ same
    obtain ⟨c, rfl, starts⟩ := (Written.arr written).starts_append written' same
    cases written' with
    | arr written' =>
      rw [write, write] at same
      obtain ⟨rfl, rfl⟩ := writeElements_append (fun e inside => ⟨written e inside, ih e inside⟩)
        written' (Or.inl rfl) (List.cons.inj same).2
      exact ⟨rfl, rfl⟩
    | int => exact absurd starts (by simp [Starts])
    | _ => cases starts
  | obj written ih =>
    intro e' a b written' _ _ same
    obtain ⟨c, rfl, starts⟩ := (Written.obj written).starts_append written' same
    cases written' with
    | obj written' =>
      rw [write, write] at same
      obtain ⟨rfl, rfl⟩ := writeMembers_append ih written' (Or.inl rfl) (List.cons.inj same).2
      exact ⟨rfl, rfl⟩
    | int => exact absurd starts (by simp [Starts])
    | _ => cases starts

theorem write_injOn : Set.InjOn (fun e => String.ofList (write e)) {e | Written e} := by
  intro e written e' written' same
  have texts : write e = write e' := String.ofList_injective same
  refine (written.reads e' [] [] written' ends_nil ends_nil ?_).1
  rw [texts]

end Json
