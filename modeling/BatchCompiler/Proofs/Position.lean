/-
# BatchCompiler.Proofs.Position -- what a location says about its offset

A location is worked out from a byte offset, which may lie past the end or inside a character, and
tells of it by line and column. Nothing is lost by this but how far inside the character the offset
was: rounded down to a character it can be computed again from line and column, if the lines of the
source are known. So two offsets have the same line and column only if they are rounded down to the
same character (`locations_identify_offsets`).
-/

import Mathlib
import BatchCompiler.Proofs.Munch
import BatchCompiler.Source.Location

namespace BatchCompiler

/-! ## Rounding down to a character -/

/-- The start of the character in which the byte lies, or the end of the source. -/
def roundDown (source : String) (loc : Nat) : Nat := byteSize (takeBytes loc source.toList)

theorem takeBytes_append {front : List Char} {n : Nat} (h : byteSize front ≤ n)
    (rest : List Char) :
    takeBytes n (front ++ rest) = front ++ takeBytes (n - byteSize front) rest := by
  induction front generalizing n with
  | nil => rfl
  | cons c front ih =>
    rw [byteSize_cons] at h
    rw [List.cons_append, takeBytes, if_pos (by omega), ih (by omega), byteSize_cons, Nat.sub_sub]
    rfl

theorem utf8ByteSize_eq_byteSize (s : String) : s.utf8ByteSize = byteSize s.toList := by
  rw [← utf8ByteSize_ofList, String.ofList_toList]

theorem roundDown_le_utf8ByteSize (source : String) (loc : Nat) :
    roundDown source loc ≤ source.utf8ByteSize := by
  have hcut := congrArg byteSize (takeBytes_append_dropBytes loc source.toList)
  rw [byteSize_append] at hcut
  rw [utf8ByteSize_eq_byteSize, ← hcut]
  exact Nat.le_add_right _ _

theorem isValid_roundDown (source : String) (loc : Nat) :
    (String.Pos.Raw.mk (roundDown source loc)).IsValid source := by
  rw [String.Pos.Raw.isValid_iff_exists_append]
  refine ⟨String.ofList (takeBytes loc source.toList), String.ofList (dropBytes loc source.toList),
    ?_, ?_⟩
  · rw [← String.ofList_append, takeBytes_append_dropBytes, String.ofList_toList]
  · rw [String.Pos.Raw.ext_iff, String.byteIdx_rawEndPos, utf8ByteSize_ofList, roundDown]

/-- The place to which an offset is rounded down is the greatest one between characters that is not
above it. -/
theorem isGreatest_roundDown (source : String) (loc : Nat) :
    IsGreatest {q | (String.Pos.Raw.mk q).IsValid source ∧ q ≤ min loc source.utf8ByteSize}
      (roundDown source loc) := by
  refine ⟨⟨isValid_roundDown source loc,
    Nat.le_min.2 ⟨byteSize_takeBytes_le .., roundDown_le_utf8ByteSize ..⟩⟩, ?_⟩
  rintro q ⟨hvalid, hle⟩
  obtain ⟨front, rest, rfl, hq⟩ := String.Pos.Raw.isValid_iff_exists_append.1 hvalid
  obtain rfl : q = byteSize front.toList := by
    rw [String.Pos.Raw.ext_iff, String.byteIdx_rawEndPos, utf8ByteSize_eq_byteSize] at hq
    exact hq
  rw [roundDown, String.toList_append, takeBytes_append (Nat.le_min.1 hle).1, byteSize_append]
  exact Nat.le_add_right _ _

theorem takeBytes_roundDown (source : String) (loc : Nat) :
    takeBytes (roundDown source loc) source.toList = takeBytes loc source.toList := by
  nth_rewrite 1 [← takeBytes_append_dropBytes loc source.toList]
  exact takeBytes_byteSize_append _ _

theorem dropBytes_roundDown (source : String) (loc : Nat) :
    dropBytes (roundDown source loc) source.toList = dropBytes loc source.toList := by
  nth_rewrite 1 [← takeBytes_append_dropBytes loc source.toList]
  exact dropBytes_byteSize_append _ _

/-! ## Lines -/

theorem length_splitOn_newline (cs : List Char) :
    (cs.splitOn '\n').length = cs.count '\n' + 1 := by
  induction cs with
  | nil => rfl
  | cons c cs ih =>
    rw [List.splitOn_cons_eq_if_modifyHead, List.count_cons]
    split
    · rw [List.length_cons, ih]
    · rw [List.length_modifyHead, ih]

/-- The offset at which the line starts that has `k` lines before it. -/
def lineStart (lines : List (List Char)) (k : Nat) : Nat :=
  ((lines.take k).map fun line => byteSize line + 1).sum

/-- With a line feed behind each line, the lines are the text and a line feed behind it. -/
theorem sum_byteSize_splitOn_newline (cs : List Char) :
    ((cs.splitOn '\n').map fun line => byteSize line + 1).sum = byteSize cs + 1 := by
  induction cs with
  | nil => rfl
  | cons c cs ih =>
    rw [List.splitOn_cons_eq_if_modifyHead]
    split
    next hc =>
      obtain rfl : c = '\n' := eq_of_beq hc
      have hsize : '\n'.utf8Size = 1 := rfl
      rw [List.map_cons, List.sum_cons, ih, byteSize_nil, byteSize_cons, hsize]
      omega
    next =>
      obtain ⟨line, later, hlines⟩ := List.exists_cons_of_ne_nil (List.splitOn_ne_nil '\n' cs)
      rw [hlines, List.map_cons, List.sum_cons] at ih
      rw [hlines, List.modifyHead_cons, List.map_cons, List.sum_cons, byteSize_cons, byteSize_cons]
      omega

theorem splitOn_newline_eq_cons (cs : List Char) :
    ∃ later, cs.splitOn '\n' = cs.takeWhile (· ≠ '\n') :: later := by
  induction cs with
  | nil => exact ⟨[], rfl⟩
  | cons c cs ih =>
    obtain ⟨later, hlines⟩ := ih
    rw [List.splitOn_cons_eq_if_modifyHead, hlines]
    split
    next hc =>
      obtain rfl : c = '\n' := eq_of_beq hc
      exact ⟨_, rfl⟩
    next hc =>
      refine ⟨later, ?_⟩
      rw [List.modifyHead_cons, List.takeWhile_cons_of_pos (by simpa using hc)]

namespace Location

theorem newline_not_mem_lineHead (before : List Char) : '\n' ∉ lineHead before := by
  intro hmem
  have hne := List.mem_rtakeWhile_imp (p := fun c => decide (c ≠ '\n')) hmem
  exact absurd rfl (of_decide_eq_true hne)

/-- In front of the last line there is nothing, or a line feed. -/
theorem lineHead_cases (before : List Char) :
    before = lineHead before ∨ ∃ front, before = front ++ '\n' :: lineHead before := by
  have hcut : before.rdropWhile (· ≠ '\n') ++ lineHead before = before :=
    List.rdropWhile_append_rtakeWhile
  by_cases hfront : before.rdropWhile (· ≠ '\n') = []
  · rw [hfront, List.nil_append] at hcut
    exact .inl hcut.symm
  · have hlast := List.rdropWhile_last_not _ _ hfront
    have hnewline : (before.rdropWhile (· ≠ '\n')).getLast hfront = '\n' := by simpa using hlast
    refine .inr ⟨(before.rdropWhile (· ≠ '\n')).dropLast, ?_⟩
    calc before
        = before.rdropWhile (· ≠ '\n') ++ lineHead before := hcut.symm
      _ = (before.rdropWhile (· ≠ '\n')).dropLast ++
            [(before.rdropWhile (· ≠ '\n')).getLast hfront] ++ lineHead before := by
          rw [List.dropLast_append_getLast]
      _ = (before.rdropWhile (· ≠ '\n')).dropLast ++ '\n' :: lineHead before := by
          rw [hnewline, ← List.append_cons]

/-- A text is cut into the lines in front of the one in which `before` ends, that line, and the
lines behind it. -/
theorem exists_lines (before after : List Char) : ∃ front earlier later,
    before = front ++ lineHead before ∧
    (before ++ after).splitOn '\n' =
      earlier ++ (lineHead before ++ after.takeWhile (· ≠ '\n')) :: later ∧
    earlier.length = before.count '\n' ∧
    (earlier.map fun line => byteSize line + 1).sum = byteSize front := by
  have hhead := newline_not_mem_lineHead before
  obtain ⟨later, hlater⟩ := splitOn_newline_eq_cons (lineHead before ++ after)
  rw [List.takeWhile_append_of_pos fun c hc => decide_eq_true (ne_of_mem_of_not_mem hc hhead)]
    at hlater
  have hcount : (lineHead before).count '\n' = 0 := List.count_eq_zero.2 hhead
  obtain hbefore | ⟨front, hbefore⟩ := lineHead_cases before
  · refine ⟨[], [], later, hbefore, ?_, ?_, rfl⟩
    · nth_rewrite 1 [hbefore]
      exact hlater
    · rw [hbefore, hcount]
      rfl
  · -- The line feed in front of the last line parts it from the lines before.
    have hnewline : '\n'.utf8Size = 1 := rfl
    refine ⟨front ++ ['\n'], front.splitOn '\n', later, ?_, ?_, ?_, ?_⟩
    · rwa [List.append_assoc, List.singleton_append]
    · nth_rewrite 1 [hbefore]
      rw [List.append_assoc, List.cons_append, List.splitOn_append_cons_self, hlater]
    · have htotal := congrArg (List.count '\n') hbefore
      rw [List.count_append, List.count_cons_self, hcount] at htotal
      rw [length_splitOn_newline, htotal]
    · rw [sum_byteSize_splitOn_newline, byteSize_append, byteSize_cons, byteSize_nil, hnewline]

/-- Behind what is left of a line there is nothing but carriage returns. -/
theorem trimReturns_spec (line : List Char) :
    (∃ k, line = trimReturns line ++ List.replicate k '\r') ∧
      (trimReturns line).getLast? ≠ some '\r' := by
  have hcut : trimReturns line ++ line.rtakeWhile (· = '\r') = line :=
    List.rdropWhile_append_rtakeWhile
  have hreturns : ∀ c ∈ line.rtakeWhile (· = '\r'), c = '\r' := fun c hc =>
    of_decide_eq_true (List.mem_rtakeWhile_imp (p := fun c => decide (c = '\r')) hc)
  constructor
  · refine ⟨(line.rtakeWhile (· = '\r')).length, ?_⟩
    rw [← List.eq_replicate_of_mem hreturns, hcut]
  · intro hlast
    obtain ⟨hne, hlast⟩ := List.mem_getLast?_eq_getLast hlast
    refine List.rdropWhile_last_not (fun c => decide (c = '\r')) line hne ?_
    exact decide_eq_true hlast.symm

/-- What a location has to say of the place at byte `p` of the source, if that is in this line. -/
structure PointsAt (source : String) (p : Nat) (line : List Char) (l : Location) : Prop where
  line_pos : 1 ≤ l.line
  column_pos : 1 ≤ l.column
  /-- It names the line by its number. -/
  line_eq : (source.toList.splitOn '\n')[l.line - 1]? = some line
  /-- The place is in the line, or is the line feed that ends it. -/
  column_le : l.column - 1 ≤ line.length
  /-- The lines before and the characters before make up the offset. -/
  offset : p = lineStart (source.toList.splitOn '\n') (l.line - 1) +
    byteSize (line.take (l.column - 1))
  /-- It shows the line without its carriage returns. -/
  sourceLine : (∃ k, line = l.sourceLine.toList ++ List.replicate k '\r') ∧
    l.sourceLine.toList.getLast? ≠ some '\r'
  marker : l.marker.toList = List.replicate (l.column - 1) ' ' ++ ['^']
  /-- The line can be cut out of the source, up to the place and as a whole. -/
  slice_head : slice? source (lineStart (source.toList.splitOn '\n') (l.line - 1))
    (p - lineStart (source.toList.splitOn '\n') (l.line - 1)) =
      some (String.ofList (line.take (l.column - 1)))
  slice_line : slice? source (lineStart (source.toList.splitOn '\n') (l.line - 1)) (byteSize line) =
    some (String.ofList line)

theorem pointsAt_ofSplit {source : String} {before after : List Char}
    (h : before ++ after = source.toList) :
    (ofSplit before after).PointsAt source (byteSize before)
      (lineHead before ++ after.takeWhile (· ≠ '\n')) := by
  obtain ⟨front, earlier, later, hbefore, hlines, hlength, hsum⟩ := exists_lines before after
  rw [h] at hlines
  have hstart : lineStart (source.toList.splitOn '\n') (before.count '\n') = byteSize front := by
    rw [lineStart, hlines, ← hlength, List.take_left, hsum]
  have htake : (lineHead before ++ after.takeWhile (· ≠ '\n')).take (lineHead before).length =
      lineHead before := List.take_left
  have hoffset : byteSize before = byteSize front + byteSize (lineHead before) := by
    rw [← byteSize_append, ← hbefore]
  have hsource : front ++ (lineHead before ++ after) = source.toList := by
    rw [← List.append_assoc, ← hbefore, h]
  exact {
    line_pos := Nat.le_add_left 1 _
    column_pos := Nat.le_add_left 1 _
    line_eq := by
      show (source.toList.splitOn '\n')[before.count '\n']? = _
      rw [hlines, ← hlength, List.getElem?_append_right (Nat.le_refl _), Nat.sub_self]
      rfl
    column_le := by
      show (lineHead before).length ≤ _
      rw [List.length_append]
      exact Nat.le_add_right _ _
    offset := by
      show _ = lineStart _ (before.count '\n') + byteSize (List.take (lineHead before).length _)
      rw [hstart, htake, hoffset]
    sourceLine := by
      show (∃ k, _ = (String.ofList _).toList ++ _) ∧ (String.ofList _).toList.getLast? ≠ _
      rw [String.toList_ofList]
      exact trimReturns_spec _
    marker := String.toList_ofList
    slice_head := by
      show slice? source (lineStart _ (before.count '\n')) (_ - lineStart _ (before.count '\n')) =
        some (String.ofList (List.take (lineHead before).length _))
      rw [hstart, htake, hoffset, Nat.add_sub_cancel_left]
      exact slice?_of_append hsource
    slice_line := by
      show slice? source (lineStart _ (before.count '\n')) _ = _
      rw [hstart]
      rw [← List.takeWhile_append_dropWhile (p := (· ≠ '\n')) (l := after),
        ← List.append_assoc (lineHead before)] at hsource
      exact slice?_of_append hsource }

/-- The location of an offset points at where the offset is rounded down to. -/
theorem pointsAt_ofOffset (source : String) (loc : Nat) :
    ∃ line, (ofOffset source loc).PointsAt source (roundDown source loc) line :=
  ⟨_, pointsAt_ofSplit (takeBytes_append_dropBytes loc source.toList)⟩

/-- Line and column tell where the place is. -/
theorem PointsAt.unique {source : String} {p p' : Nat} {line line' : List Char} {l l' : Location}
    (h : l.PointsAt source p line) (h' : l'.PointsAt source p' line') (hline : l.line = l'.line)
    (hcolumn : l.column = l'.column) : p = p' := by
  have hsame : some line = some line' := by rw [← h.line_eq, ← h'.line_eq, hline]
  rw [h.offset, h'.offset, hline, hcolumn, Option.some.inj hsame]

/-- An offset has the location of where it is rounded down to. -/
theorem ofOffset_roundDown (source : String) (loc : Nat) :
    ofOffset source (roundDown source loc) = ofOffset source loc := by
  rw [ofOffset, takeBytes_roundDown, dropBytes_roundDown, ofOffset]

end Location

/-- **Locations identify offsets.** Whatever the offset, it is rounded down to the greatest place
between characters that is not above it, and its location points there. Two offsets have the same
line and column exactly if they are rounded down to the same place. -/
theorem locations_identify_offsets (source : String) :
    (∀ loc, IsGreatest {q | (String.Pos.Raw.mk q).IsValid source ∧ q ≤ min loc source.utf8ByteSize}
        (roundDown source loc) ∧
      ∃ line, (Location.ofOffset source loc).PointsAt source (roundDown source loc) line) ∧
    ∀ loc loc', (Location.ofOffset source loc).line = (Location.ofOffset source loc').line ∧
      (Location.ofOffset source loc).column = (Location.ofOffset source loc').column ↔
        roundDown source loc = roundDown source loc' := by
  refine ⟨fun loc => ⟨isGreatest_roundDown source loc, Location.pointsAt_ofOffset source loc⟩, ?_⟩
  intro loc loc'
  constructor
  · rintro ⟨hline, hcolumn⟩
    obtain ⟨_, h⟩ := Location.pointsAt_ofOffset source loc
    obtain ⟨_, h'⟩ := Location.pointsAt_ofOffset source loc'
    exact h.unique h' hline hcolumn
  · intro hround
    have hsame : Location.ofOffset source loc = Location.ofOffset source loc' := by
      rw [← Location.ofOffset_roundDown source loc, hround, Location.ofOffset_roundDown]
    rw [hsame]
    exact ⟨rfl, rfl⟩

/-- The second byte of `é`, and a line feed with a carriage return before it. -/
example :
    Location.ofOffset "é\r\nb" 1 = ⟨1, 1, "é", "^"⟩ ∧
    Location.ofOffset "é\r\nb" 3 = ⟨1, 3, "é", "  ^"⟩ := by
  decide +kernel

end BatchCompiler
