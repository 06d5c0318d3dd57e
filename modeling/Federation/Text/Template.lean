import Federation.Text.Blank

/-!
Templates: texts with placeholders in double braces. A placeholder whose content, less the white
space around it, starts with the word for arguments and a dot refers to an argument.
-/

namespace Federation.Text.Template

/-- Splits at the first place where a character stands twice in a row, and leaves both out. -/
def splitAtPair (c : Char) : List Char → Option (List Char × List Char)
  | a :: b :: rest =>
    if a = c ∧ b = c then some ([], rest)
    else (splitAtPair c (b :: rest)).map fun (before, after) => (a :: before, after)
  | _ => none

theorem length_of_splitAtPair {c : Char} {cs before after : List Char}
    (h : splitAtPair c cs = some (before, after)) : before.length + after.length + 2 = cs.length := by
  fun_induction splitAtPair c cs generalizing before after with
  | case1 a b rest same => simp_all
  | case2 a b rest differ ih =>
    obtain ⟨⟨u, v⟩, hu, he⟩ := Option.map_eq_some_iff.1 h
    simp only [Prod.mk.injEq] at he
    obtain ⟨rfl, rfl⟩ := he
    have := ih hu
    simp only [List.length_cons] at this ⊢
    omega
  | case3 => simp at h

/-- The content of the first placeholder and what follows it. Braces that are never closed are no
placeholder, and neither is anything after them. -/
def placeholder? (cs : List Char) : Option (List Char × List Char) := do
  let (_, inside) ← splitAtPair '\x7b' cs
  splitAtPair '\x7d' inside

theorem length_of_placeholder? {cs content rest : List Char}
    (h : placeholder? cs = some (content, rest)) : rest.length < cs.length := by
  unfold placeholder? at h
  obtain ⟨⟨before, inside⟩, opened, closed⟩ := Option.bind_eq_some_iff.1 h
  have := length_of_splitAtPair opened
  have := length_of_splitAtPair closed
  omega

def contents (cs : List Char) : List (List Char) :=
  match _ : placeholder? cs with
  | none => []
  | some (content, rest) => content :: contents rest
termination_by cs.length
decreasing_by exact length_of_placeholder? (by assumption)

/-- The argument that a placeholder refers to. -/
def argument? (content : List Char) : Option String :=
  match trimChars content with
  | 'a' :: 'r' :: 'g' :: 's' :: '.' :: name => some (String.ofList name)
  | _ => none

/-- The arguments that a template refers to, in order and with repetitions. -/
def argumentNames (template : String) : List String :=
  (contents template.toList).filterMap argument?

end Federation.Text.Template
