import Mathlib.Data.List.Basic

/-!
# Comma separated values

A record ends with a line break and its fields are separated by commas. A field that is not in quotes holds
none of these and no quote; a field in quotes holds any text, with each of its quotes written twice. A file is
read in one pass, and a file of such records is read back as the texts of its fields.
-/

namespace Polis.Csv

open List Option

/-! ## Reading -/

/-- Where the pass is: before a field, in one, in quotes, after a quote that may have ended them, or after a
carriage return. -/
inductive Place
  | before
  | plain
  | quotes
  | quote
  | cr
deriving DecidableEq, Repr

structure State where
  place : Place
  field : List Char
  record : List (List Char)
  records : List (List (List Char))
deriving DecidableEq, Repr

namespace State

def endField (s : State) : State :=
  { s with place := .before, field := [], record := s.record ++ [s.field] }

def endRecord (s : State) : State :=
  { place := .before, field := [], record := [], records := s.records ++ [s.record ++ [s.field]] }

/-- A character after which the field goes on, or ends. -/
def outside (s : State) (c : Char) (other : Option State) : Option State :=
  if c = ',' then some s.endField
  else if c = '\n' then some s.endRecord
  else if c = '\r' then some { s with place := .cr }
  else other

def step (s : State) (c : Char) : Option State :=
  match s.place with
  | .before =>
    s.outside c (if c = '"' then some { s with place := .quotes }
      else some { s with place := .plain, field := s.field ++ [c] })
  | .plain => s.outside c (if c = '"' then none else some { s with field := s.field ++ [c] })
  | .quotes =>
    if c = '"' then some { s with place := .quote } else some { s with field := s.field ++ [c] }
  | .quote =>
    if c = '"' then some { s with place := .quotes, field := s.field ++ [c] } else s.outside c none
  | .cr => if c = '\n' then some s.endRecord else none

/-- The records at the end of the text; the last one needs no line break. -/
def finish (s : State) : Option (List (List (List Char))) :=
  match s.place with
  | .before => if s.record = [] then some s.records else some s.endRecord.records
  | .plain => some s.endRecord.records
  | .quote => some s.endRecord.records
  | .quotes => none
  | .cr => none

end State

def parse (text : List Char) : Option (List (List (List Char))) :=
  (text.foldlM State.step ⟨.before, [], [], []⟩).bind State.finish

/-! ## Writing -/

/-- A field, and whether it is written in quotes. -/
inductive Field
  | plain (text : List Char)
  | quoted (text : List Char)

namespace Field

def value : Field → List Char
  | .plain text => text
  | .quoted text => text

/-- Each quote is written twice. -/
def doubled (text : List Char) : List Char := text.flatMap fun c => if c = '"' then ['"', '"'] else [c]

def text : Field → List Char
  | .plain text => text
  | .quoted text => '"' :: doubled text ++ ['"']

/-- No character that has a meaning of its own. -/
def Clean (text : List Char) : Prop := ∀ c ∈ text, c ≠ ',' ∧ c ≠ '"' ∧ c ≠ '\n' ∧ c ≠ '\r'

instance (text : List Char) : Decidable (Clean text) := List.decidableBAll _ text

def Ok : Field → Prop
  | .plain text => Clean text
  | .quoted _ => True

end Field

def joined (record : List Field) : List Char := [','].intercalate (record.map Field.text)

def line (record : List Field) : List Char := joined record ++ ['\n']

/-! ## What is written is read back -/

open State

variable {text : List Char} {f : Field} {record : List Field} {read : List (List Char)}
  {records : List (List (List Char))} {s : State}
variable {file : List (List Field)}

/-- A place at which a field may end. -/
def Place.Ends : Place → Prop
  | .before => True
  | .plain => True
  | .quote => True
  | .quotes => False
  | .cr => False

theorem step_comma (h : s.place.Ends) : s.step ',' = some s.endField := by
  obtain ⟨place, field, record, records⟩ := s
  cases place <;> first | rfl | exact h.elim

theorem step_newline (h : s.place.Ends) : s.step '\n' = some s.endRecord := by
  obtain ⟨place, field, record, records⟩ := s
  cases place <;> first | rfl | exact h.elim

theorem foldlM_plain (h : Field.Clean text) (hs : s.place = .plain) :
    text.foldlM step s = some { s with field := s.field ++ text } := by
  induction text generalizing s with
  | nil => simp
  | cons c text ih =>
    obtain ⟨⟨hcomma, hquote, hnewline, hreturn⟩, htext⟩ := forall_mem_cons.1 h
    have hstep : s.step c = some { s with field := s.field ++ [c] } := by
      rw [step, hs]
      simp only [outside, if_neg hcomma, if_neg hnewline, if_neg hreturn, if_neg hquote]
    rw [foldlM_cons, hstep]
    refine (@ih { s with field := s.field ++ [c] } htext hs).trans ?_
    simp

theorem foldlM_quotes (text : List Char) (hs : s.place = .quotes) :
    (Field.doubled text).foldlM step s = some { s with field := s.field ++ text } := by
  induction text generalizing s with
  | nil => simp [Field.doubled]
  | cons c text ih =>
    have hchar : (if c = '"' then ['"', '"'] else [c]).foldlM step s =
        some { s with field := s.field ++ [c] } := by
      obtain ⟨place, field, record, records⟩ := s
      obtain rfl : place = .quotes := hs
      by_cases hc : c = '"'
      · subst hc
        rfl
      · simp [step, hc]
    rw [Field.doubled, flatMap_cons, foldlM_append, hchar]
    refine (@ih { s with field := s.field ++ [c] } hs).trans ?_
    simp

/-- Reading a field from before it leaves its text, at a place where it may end. -/
theorem foldlM_field (h : f.Ok) : ∃ place, Place.Ends place ∧
    f.text.foldlM step ⟨.before, [], read, records⟩ = some ⟨place, f.value, read, records⟩ := by
  cases f with
  | plain text =>
    cases text with
    | nil => exact ⟨.before, trivial, rfl⟩
    | cons c text =>
      obtain ⟨⟨hcomma, hquote, hnewline, hreturn⟩, htext⟩ := forall_mem_cons.1 h
      refine ⟨.plain, trivial, ?_⟩
      have hstep : step ⟨.before, [], read, records⟩ c = some ⟨.plain, [c], read, records⟩ := by
        simp only [step, outside, if_neg hcomma, if_neg hnewline, if_neg hreturn, if_neg hquote]
        rfl
      rw [Field.text, foldlM_cons, hstep]
      exact foldlM_plain htext rfl
  | quoted text =>
    refine ⟨.quote, trivial, ?_⟩
    have hstep : step ⟨.before, [], read, records⟩ '"' = some ⟨.quotes, [], read, records⟩ := rfl
    rw [Field.text, cons_append, foldlM_cons, hstep]
    refine (foldlM_append).trans ?_
    rw [foldlM_quotes text rfl]
    rfl

/-- Reading the fields of a record, up to the end of the last one. -/
theorem foldlM_joined (h : ∀ f ∈ record, f.Ok) (hne : record ≠ []) : ∃ s : State, s.place.Ends ∧
    s.record ++ [s.field] = read ++ record.map Field.value ∧ s.records = records ∧
    (record.length ≠ 1 ∨ read ≠ [] → s.record ≠ []) ∧
    (joined record).foldlM step ⟨.before, [], read, records⟩ = some s := by
  induction record generalizing read with
  | nil => exact absurd rfl hne
  | cons f record ih =>
    obtain ⟨hf, hrecord⟩ := forall_mem_cons.1 h
    obtain ⟨place, hends, hread⟩ := @foldlM_field f read records hf
    cases record with
    | nil =>
      refine ⟨⟨place, f.value, read, records⟩, hends, rfl, rfl, ?_, ?_⟩
      · rintro (hlen | hne)
        · exact absurd rfl hlen
        · exact hne
      · simpa [joined] using hread
    | cons g record =>
      obtain ⟨s, hs, hfields, hrecords, hmore, hrest⟩ := @ih (read ++ [f.value]) hrecord (cons_ne_nil _ _)
      refine ⟨s, hs, hfields.trans (by simp), hrecords, fun _ => hmore (.inr (by simp)), ?_⟩
      have hsplit : joined (f :: g :: record) = f.text ++ ',' :: joined (g :: record) := by
        simp [joined, List.intercalate]
      rw [hsplit, foldlM_append, hread]
      change (List.cons ',' (joined (g :: record))).foldlM step ⟨place, f.value, read, records⟩ = some s
      rw [foldlM_cons, step_comma hends]
      exact hrest

theorem foldlM_line (h : ∀ f ∈ record, f.Ok) (hne : record ≠ []) :
    (line record).foldlM step ⟨.before, [], [], records⟩ =
      some ⟨.before, [], [], records ++ [record.map Field.value]⟩ := by
  obtain ⟨s, hs, hfields, rfl, -, hread⟩ := @foldlM_joined record [] records h hne
  rw [line, foldlM_append, hread]
  change ['\n'].foldlM step s = _
  rw [foldlM_cons, step_newline hs, endRecord, hfields]
  rfl

section

variable (h : ∀ record ∈ file, record ≠ [] ∧ ∀ f ∈ record, f.Ok)
include h

theorem foldlM_lines :
    (file.flatMap line).foldlM step ⟨.before, [], [], records⟩ =
      some ⟨.before, [], [], records ++ file.map (List.map Field.value)⟩ := by
  induction file generalizing records with
  | nil => simp
  | cons record file ih =>
    obtain ⟨⟨hne, hok⟩, hfile⟩ := forall_mem_cons.1 h
    rw [flatMap_cons, foldlM_append, foldlM_line hok hne]
    refine (ih hfile).trans ?_
    simp

/-- A file of lines is read back, record by record. -/
theorem parse_lines :
    parse (file.flatMap line) = some (file.map (List.map Field.value)) := by
  rw [parse, foldlM_lines h]
  simp [finish]

/-- The line break of the last record may be left out, unless the record is one field. -/
theorem parse_lines_joined
    (hne : record ≠ []) (hok : ∀ f ∈ record, f.Ok)
    (hmore : record.length ≠ 1) :
    parse (file.flatMap line ++ joined record) =
      some (file.map (List.map Field.value) ++ [record.map Field.value]) := by
  obtain ⟨s, hs, hfields, hrecords, hrecord, hread⟩ :=
    @foldlM_joined record [] (file.map (List.map Field.value)) hok hne
  have hnil : s.record ≠ [] := hrecord (.inl hmore)
  have hfile : (file.flatMap line ++ joined record).foldlM step ⟨.before, [], [], []⟩ = some s := by
    rw [foldlM_append, foldlM_lines h]
    exact hread
  have hend : s.finish = some s.endRecord.records := by
    rw [finish]
    cases hplace : s.place with
    | before => exact if_neg hnil
    | plain => rfl
    | quote => rfl
    | quotes | cr => rw [hplace] at hs; exact hs.elim
  rw [parse, hfile, bind_some, hend, endRecord, hfields, hrecords]
  rfl

end

end Polis.Csv
