import Ned.Text.LineDiff

/-!
# Lines

A text is its lines put together, and lines of which only the last may lack its newline are what
their text is split into.
-/

namespace Ned.Text

def Terminated (line : Line) : Prop := ∃ body, line = body ++ [newline] ∧ newline ∉ body

def Unterminated (line : Line) : Prop := line ≠ [] ∧ newline ∉ line

inductive Lined : List Line → Prop
  | nil : Lined []
  | last {line : Line} (h : Unterminated line) : Lined [line]
  | cons {line : Line} {lines : List Line} (h : Terminated line) (hlines : Lined lines) :
      Lined (line :: lines)

section

variable {line : Line} {lines rest P Q K R Y : List Line} {text : Bytes} {c : UInt8}

theorem flatten_splitLines (text : Bytes) : (splitLines text).flatten = text := by
  induction text with
  | nil => rfl
  | cons c text ih =>
      simp only [splitLines]
      split
      · simp [ih]
      · split <;> rename_i heq <;> rw [heq] at ih <;> simp_all

theorem splitLines_cons_newline : splitLines (newline :: text) = [newline] :: splitLines text := by
  simp [splitLines, isNewline]

theorem splitLines_cons_of_ne (hc : c ≠ newline) (h : splitLines text = line :: lines) :
    splitLines (c :: text) = (c :: line) :: lines := by
  simp [splitLines, isNewline, hc, h]

theorem splitLines_terminated (h : Terminated line) (text : Bytes) :
    splitLines (line ++ text) = line :: splitLines text := by
  obtain ⟨body, rfl, hbody⟩ := h
  induction body with
  | nil => exact splitLines_cons_newline
  | cons c body ih =>
      have hc : c ≠ newline := fun heq => hbody (heq ▸ List.mem_cons_self)
      exact splitLines_cons_of_ne hc (ih fun hmem => hbody (List.mem_cons_of_mem _ hmem))

theorem splitLines_unterminated (h : Unterminated line) : splitLines line = [line] := by
  obtain ⟨hne, hnot⟩ := h
  induction line with
  | nil => exact absurd rfl hne
  | cons c line ih =>
      have hc : c ≠ newline := fun heq => hnot (heq ▸ List.mem_cons_self)
      cases line with
      | nil => simp [splitLines, isNewline, hc]
      | cons d line =>
          exact splitLines_cons_of_ne hc
            (ih (List.cons_ne_nil _ _) fun hmem => hnot (List.mem_cons_of_mem _ hmem))

theorem Lined.splitLines_flatten (h : Lined lines) : splitLines lines.flatten = lines := by
  induction h with
  | nil => rfl
  | last h => simpa using splitLines_unterminated h
  | cons h _ ih => rw [List.flatten_cons, splitLines_terminated h, ih]

theorem lined_splitLines (text : Bytes) : Lined (splitLines text) := by
  induction text with
  | nil => exact .nil
  | cons c text ih =>
      by_cases hc : c = newline
      · rw [hc, splitLines_cons_newline]
        exact .cons ⟨[], rfl, List.not_mem_nil⟩ ih
      · have hne : newline ≠ c := Ne.symm hc
        cases hlines : splitLines text with
        | nil =>
            have hsplit : splitLines (c :: text) = [[c]] := by simp [splitLines, isNewline, hc, hlines]
            rw [hsplit]
            exact .last ⟨List.cons_ne_nil _ _, by simpa using hne⟩
        | cons line lines =>
            rw [splitLines_cons_of_ne hc hlines]
            rw [hlines] at ih
            cases ih with
            | last h =>
                exact .last ⟨List.cons_ne_nil _ _, by simp [hne, h.2]⟩
            | cons h hrest =>
                obtain ⟨body, rfl, hbody⟩ := h
                exact .cons ⟨c :: body, rfl, by simp [hne, hbody]⟩ hrest

theorem Lined.of_append (h : Lined (P ++ Q)) : Lined P ∧ Lined Q := by
  induction P with
  | nil => exact ⟨.nil, h⟩
  | cons line P ih =>
      rw [List.cons_append] at h
      cases hrest : P ++ Q with
      | nil =>
          obtain ⟨rfl, rfl⟩ := List.append_eq_nil_iff.1 hrest
          exact ⟨h, .nil⟩
      | cons next rest =>
          rw [hrest] at h ih
          cases h with
          | cons hline hlines => exact ⟨.cons hline (ih hlines).1, (ih hlines).2⟩

theorem Lined.terminated (h : Lined (P ++ Q)) (hQ : Q ≠ []) : ∀ line ∈ P, Terminated line := by
  induction P with
  | nil => exact fun _ hmem => absurd hmem List.not_mem_nil
  | cons line P ih =>
      rw [List.cons_append] at h
      cases hrest : P ++ Q with
      | nil => exact absurd (List.append_eq_nil_iff.1 hrest).2 hQ
      | cons next rest =>
          rw [hrest] at h ih
          cases h with
          | cons hline hlines =>
              intro other hmem
              rcases List.mem_cons.1 hmem with rfl | hmem
              · exact hline
              · exact ih hlines other hmem

theorem Lined.append (hP : ∀ line ∈ P, Terminated line) (hQ : Lined Q) : Lined (P ++ Q) := by
  induction P with
  | nil => exact hQ
  | cons line P ih =>
      exact .cons (hP line List.mem_cons_self) (ih fun _ hmem => hP _ (List.mem_cons_of_mem _ hmem))

theorem Lined.mix (hb : Lined (P ++ (K ++ Y))) (ha : Lined (R ++ (K ++ Q)))
    (hshared : K ≠ [] ∨ P = []) : Lined (P ++ (K ++ Q)) := by
  have hKQ := ha.of_append.2
  by_cases hP : P = []
  · rwa [hP]
  · have hK := hshared.resolve_right hP
    exact .append (hb.terminated fun h => hK (List.append_eq_nil_iff.1 h).1) hKQ

end

end Ned.Text
