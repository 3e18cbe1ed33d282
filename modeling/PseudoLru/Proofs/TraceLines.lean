import Mathlib.Tactic
import PseudoLru.Simulator

/-!
# Lines of traces

A trace that was read up to the end of a line goes on like a trace that starts
there, except that lines and addresses were counted.  So a trace may be cut
behind any line: its parts are parsed one after the other, and the first error
decides.  A carriage return at the end of a line is white space to the address
and one more character to the encoding, hence line feeds with and without one
are the same, and so are last lines with and without a line feed.
-/

namespace PseudoLru

/-! ## UTF-8 -/

def utf8 (text : String) : Bytes := text.toUTF8.data.toList

theorem utf8_ofList (text : List Char) :
    utf8 (String.ofList text) = text.flatMap String.utf8EncodeChar := by
  simp [utf8, String.toUTF8_eq_toByteArray, List.utf8Encode]

theorem decodeUtf8_eq_ok_iff (bytes : Bytes) (text : String) :
    decodeUtf8 bytes = .ok text ↔ utf8 text = bytes := by
  have hbytes : text.toByteArray = ⟨bytes.toArray⟩ ↔ utf8 text = bytes := by
    rw [utf8, String.toUTF8_eq_toByteArray, ByteArray.ext_iff, ← Array.toList_inj]
  rw [← hbytes, decodeUtf8, String.fromUTF8?]
  by_cases hvalid : ByteArray.IsValidUTF8 ⟨bytes.toArray⟩
  · simp only [hvalid, ↓reduceDIte, Except.ok.injEq, ← String.toByteArray_inj]
    exact eq_comm
  · have hne : text.toByteArray ≠ ⟨bytes.toArray⟩ := fun heq => hvalid (heq ▸ text.isValidUTF8)
    simp [hvalid, hne]

theorem decodeUtf8_eq_error_iff (bytes : Bytes) (fault : FileFault) :
    decodeUtf8 bytes = .error fault ↔ fault = .invalidUtf8 ∧ ∀ text, utf8 text ≠ bytes := by
  simp only [ne_eq, ← decodeUtf8_eq_ok_iff]
  unfold decodeUtf8
  cases String.fromUTF8? ⟨bytes.toArray⟩ <;> simp [eq_comm]

/-- The error in a trace that has so many lines more in front. -/
def TraceError.later (lines : Nat) : TraceError → TraceError
  | .malformed line text => .malformed (line + lines) text
  | .unreadable fault => .unreadable fault

namespace Trace

open Progress

theorem utf8_append_return (text : List Char) :
    utf8 (String.ofList (text ++ ['\r'])) = utf8 (String.ofList text) ++ [carriageReturn] := by
  rw [utf8_ofList, utf8_ofList, List.flatMap_append]
  rfl

/-- A carriage return that ends an encoded text is its last character, since
all bytes of a character but the first are at least 128. -/
theorem exists_utf8_of_append_return {text : String} {bytes : Bytes}
    (htext : utf8 text = bytes ++ [carriageReturn]) : ∃ shorter, utf8 shorter = bytes := by
  rw [← String.ofList_toList (s := text), utf8_ofList] at htext
  rcases List.eq_nil_or_concat text.toList with hnil | ⟨chars, c, hchars⟩
  · simp [hnil] at htext
  · rw [hchars, List.concat_eq_append, List.flatMap_append, List.flatMap_singleton] at htext
    have hne : String.utf8EncodeChar c ≠ [] := String.utf8EncodeChar_ne_nil
    have hlast : (String.utf8EncodeChar c).getLast hne = carriageReturn := by
      simpa [hne, List.getLast?_eq_some_getLast] using congrArg List.getLast? htext
    have hlt := Nat.sub_one_lt (List.length_pos_of_ne_nil hne).ne'
    have hfirst :
        (String.utf8EncodeChar c)[(String.utf8EncodeChar c).length - 1].IsUTF8FirstByte := by
      rw [← List.getLast_eq_getElem hne, hlast]
      decide
    rw [UInt8.isUTF8FirstByte_getElem_utf8EncodeChar] at hfirst
    have hlength : (String.utf8EncodeChar c).length = [carriageReturn].length := by
      simp only [List.length_singleton]
      omega
    refine ⟨String.ofList chars, ?_⟩
    rw [utf8_ofList]
    exact List.append_inj_left' htext hlength

theorem decodeUtf8_append_return (bytes : Bytes) :
    decodeUtf8 (bytes ++ [carriageReturn]) =
      (decodeUtf8 bytes).map fun text => String.ofList (text.toList ++ ['\r']) := by
  cases hdecoded : decodeUtf8 bytes with
  | ok text =>
      rw [decodeUtf8_eq_ok_iff] at hdecoded
      simp only [Except.map]
      rw [decodeUtf8_eq_ok_iff, utf8_append_return, String.ofList_toList, hdecoded]
  | error fault =>
      rw [decodeUtf8_eq_error_iff] at hdecoded
      simp only [Except.map]
      rw [decodeUtf8_eq_error_iff]
      refine ⟨hdecoded.1, ?_⟩
      intro text htext
      rcases exists_utf8_of_append_return htext with ⟨shorter, hshorter⟩
      exact hdecoded.2 shorter hshorter

/-! ## Single lines -/

/-- The address in the bytes of a line, without its line feed. -/
def readLine (bytes : Bytes) (number : Nat) : Except TraceError (Option UInt64) := do
  parseLine (← (decodeUtf8 bytes).mapError .unreadable) number

theorem trim_append_blank (text : List Char) {c : Char} (hblank : Text.isBlank c = true) :
    Text.trim (text ++ [c]) = Text.trim text := by
  unfold Text.trim Text.trimLeft Text.trimRight
  rw [List.dropWhile_append]
  split
  next hempty => simp [List.isEmpty_iff.mp hempty, hblank]
  next => simp [hblank]

theorem statement_append_return (line : List Char) :
    statement (line ++ ['\r']) = statement line := by
  unfold statement
  rw [List.takeWhile_append]
  split
  next hall =>
    have hline : line.takeWhile (· ≠ '#') = line :=
      (List.takeWhile_prefix _).eq_of_length hall
    rw [hline]
    exact trim_append_blank line (by decide)
  next => rfl

theorem readLine_append_return (bytes : Bytes) (number : Nat) :
    readLine (bytes ++ [carriageReturn]) number = readLine bytes number := by
  rw [readLine, readLine, decodeUtf8_append_return]
  cases decodeUtf8 bytes with
  | error fault => rfl
  | ok text =>
      simp [Except.map, Except.mapError, bind, Except.bind, parseLine, statement_append_return]

theorem readLine_nil (number : Nat) : readLine [] number = .ok none := by
  have hempty : decodeUtf8 [] = .ok "" := by
    rw [decodeUtf8_eq_ok_iff]
    rfl
  simp [readLine, hempty, Except.mapError, bind, Except.bind, parseLine, statement, Text.trim,
    Text.trimLeft, Text.trimRight]

theorem readLine_add (bytes : Bytes) (number lines : Nat) :
    readLine bytes (number + lines) = (readLine bytes number).mapError (·.later lines) := by
  unfold readLine
  cases decodeUtf8 bytes with
  | error fault => rfl
  | ok text =>
      simp only [Except.mapError, bind, Except.bind, parseLine]
      split
      · rfl
      · cases address? (statement text.toList) <;> rfl

namespace Progress

/-- The progress of a trace that has so many lines more in front, and the
addresses in them, latest first. -/
def after (lines : Nat) (earlier : List UInt64) (p : Progress) : Progress :=
  ⟨p.number + lines, p.pending, p.addresses ++ earlier⟩

theorem endLine_eq (p : Progress) (bytes : Bytes) :
    p.endLine bytes = (readLine bytes.reverse p.number).map fun address? =>
      ⟨p.number + 1, [], address?.toList ++ p.addresses⟩ := by
  rw [endLine, readLine]
  cases decodeUtf8 bytes.reverse with
  | error fault => rfl
  | ok text => cases hline : parseLine text p.number <;>
      simp [hline, Except.mapError, Except.map, bind, Except.bind, pure, Except.pure]

theorem feed_lineFeed (p : Progress) : p.feed lineFeed = p.endLine p.pending := by
  rw [feed, if_pos rfl, endLine_eq, endLine_eq]
  cases p.pending with
  | nil => rfl
  | cons b rest =>
      by_cases hreturn : b = carriageReturn
      · simp [dropReturn, hreturn, readLine_append_return]
      · simp [dropReturn, hreturn]

theorem feed_of_ne {b : UInt8} (hb : b ≠ lineFeed) (p : Progress) :
    p.feed b = .ok { p with pending := b :: p.pending } :=
  if_neg hb

theorem endLine_after (lines : Nat) (earlier : List UInt64) (p : Progress) (bytes : Bytes) :
    (p.after lines earlier).endLine bytes =
      ((p.endLine bytes).map (after lines earlier)).mapError (·.later lines) := by
  rw [endLine_eq, endLine_eq, after, readLine_add]
  cases readLine bytes.reverse p.number with
  | error error => rfl
  | ok address? => simp [Except.map, Except.mapError, after, Nat.add_right_comm]

theorem feed_after (lines : Nat) (earlier : List UInt64) (p : Progress) (b : UInt8) :
    (p.after lines earlier).feed b =
      ((p.feed b).map (after lines earlier)).mapError (·.later lines) := by
  by_cases hb : b = lineFeed
  · rw [hb, feed_lineFeed, feed_lineFeed]
    exact endLine_after lines earlier p p.pending
  · rw [feed_of_ne hb, feed_of_ne hb]
    rfl

theorem feeds_after (lines : Nat) (earlier : List UInt64) (p : Progress) (bytes : Bytes) :
    bytes.foldlM feed (p.after lines earlier) =
      ((bytes.foldlM feed p).map (after lines earlier)).mapError (·.later lines) := by
  induction bytes generalizing p with
  | nil => rfl
  | cons b rest ih =>
      simp only [List.foldlM_cons, feed_after]
      cases hfeed : p.feed b with
      | error error => rfl
      | ok next => exact ih next

theorem finish_after (lines : Nat) (earlier : List UInt64) (p : Progress) :
    (p.after lines earlier).finish =
      (p.finish.map (earlier.reverse ++ ·)).mapError (·.later lines) := by
  unfold finish
  by_cases hpending : p.pending.isEmpty = true
  · simp [after, hpending, Except.map, Except.mapError, bind, Except.bind, pure, Except.pure]
  · have hpending' : (p.after lines earlier).pending.isEmpty ≠ true := hpending
    rw [if_neg hpending, if_neg hpending', endLine_after]
    cases hend : p.endLine p.pending with
    | error error => simp [after, hend, Except.map, Except.mapError, bind, Except.bind]
    | ok next =>
        simp [after, hend, Except.map, Except.mapError, bind, Except.bind, pure, Except.pure]

theorem endLine_eq_ok {p next : Progress} {bytes : Bytes} (hend : p.endLine bytes = .ok next) :
    next.number = p.number + 1 ∧ next.pending = [] := by
  rw [endLine_eq] at hend
  cases hline : readLine bytes.reverse p.number with
  | error error => simp [hline, Except.map] at hend
  | ok address? =>
      simp only [hline, Except.map, Except.ok.injEq] at hend
      simp [← hend]

theorem number_of_feeds {bytes : Bytes} {p last : Progress}
    (hfeeds : bytes.foldlM feed p = .ok last) :
    last.number = p.number + bytes.count lineFeed := by
  induction bytes generalizing p with
  | nil =>
      rw [← Except.ok.inj hfeeds]
      rfl
  | cons b rest ih =>
      rw [List.foldlM_cons] at hfeeds
      cases hfeed : p.feed b with
      | error error => simp [hfeed, bind, Except.bind] at hfeeds
      | ok next =>
          rw [hfeed] at hfeeds
          rw [ih hfeeds]
          by_cases hb : b = lineFeed
          · rw [hb, feed_lineFeed] at hfeed
            rw [hb, List.count_cons_self, (endLine_eq_ok hfeed).1]
            omega
          · rw [feed_of_ne hb, Except.ok.injEq] at hfeed
            rw [List.count_cons_of_ne hb, ← hfeed]

end Progress

/-- A trace whose last line, if it has one, has its line feed. -/
def EndsLine (bytes : Bytes) : Prop := bytes = [] ∨ bytes.getLast? = some lineFeed

theorem EndsLine.pending_eq_nil {bytes : Bytes} (hends : EndsLine bytes) {last : Progress}
    (hfeeds : bytes.foldlM feed start = .ok last) : last.pending = [] := by
  rcases hends with rfl | hlast
  · rw [← Except.ok.inj hfeeds]
    rfl
  · rw [← List.dropLast_append_getLast? _ hlast, List.foldlM_append] at hfeeds
    cases hinit : bytes.dropLast.foldlM feed start with
    | error error => simp [hinit, bind, Except.bind] at hfeeds
    | ok p =>
        simp only [hinit, bind, Except.bind, List.foldlM_cons, List.foldlM_nil, pure,
          Except.pure, feed_lineFeed] at hfeeds
        cases hend : p.endLine p.pending with
        | error error => simp [hend] at hfeeds
        | ok next =>
            simp only [hend, Except.ok.injEq] at hfeeds
            rw [← hfeeds]
            exact (endLine_eq_ok hend).2

/-! ## Traces in parts -/

theorem parse_append {x : Bytes} (hends : EndsLine x) (y : Bytes) :
    parse (x ++ y) = do
      let first ← parse x
      let rest ← (parse y).mapError (·.later (x.count lineFeed))
      return first ++ rest := by
  unfold parse
  rw [List.foldlM_append]
  cases hfeeds : x.foldlM feed start with
  | error error => rfl
  | ok p =>
      have hstart : p = start.after (x.count lineFeed) p.addresses := by
        have hnumber := number_of_feeds hfeeds
        have hpending := hends.pending_eq_nil hfeeds
        cases p
        simp_all [after, start]
      have hfinish : p.finish = .ok p.addresses.reverse := by
        simp [finish, hends.pending_eq_nil hfeeds, bind, Except.bind, pure, Except.pure]
      simp only [bind, Except.bind]
      rw [hfinish]
      conv_lhs => rw [hstart]
      rw [feeds_after]
      cases y.foldlM feed start with
      | error error => rfl
      | ok q =>
          simp only [Except.map, Except.mapError, finish_after]
          cases q.finish <;> rfl

theorem parse_append_lineFeed (bytes : Bytes) : parse (bytes ++ [lineFeed]) = parse bytes := by
  unfold parse
  rw [List.foldlM_append]
  cases bytes.foldlM feed start with
  | error error => rfl
  | ok p =>
      simp only [bind, Except.bind, List.foldlM_cons, List.foldlM_nil, feed_lineFeed, finish]
      cases hpending : p.pending with
      | nil => simp [endLine_eq, readLine_nil, Except.map, pure, Except.pure]
      | cons b rest =>
          cases hend : p.endLine (b :: rest) with
          | error error => simp
          | ok next => simp [(endLine_eq_ok hend).2, pure, Except.pure]

/-- Some line feeds of a trace got a carriage return in front. -/
inductive ReturnsAdded : Bytes → Bytes → Prop
  | nil : ReturnsAdded [] []
  | keep (b : UInt8) {x y : Bytes} (hrest : ReturnsAdded x y) : ReturnsAdded (b :: x) (b :: y)
  | add {x y : Bytes} (hrest : ReturnsAdded x y) :
      ReturnsAdded (lineFeed :: x) (carriageReturn :: lineFeed :: y)

theorem ReturnsAdded.feeds_eq {x y : Bytes} (hadded : ReturnsAdded x y) (p : Progress) :
    y.foldlM feed p = x.foldlM feed p := by
  induction hadded generalizing p with
  | nil => rfl
  | keep b _ ih =>
      simp only [List.foldlM_cons]
      cases p.feed b with
      | error error => rfl
      | ok next => exact ih next
  | add _ ih =>
      have hreturn : carriageReturn ≠ lineFeed := by decide
      have hsame : { p with pending := carriageReturn :: p.pending }.feed lineFeed =
          p.feed lineFeed := by
        simp [feed_lineFeed, endLine_eq, readLine_append_return]
      simp only [List.foldlM_cons, feed_of_ne hreturn, bind, Except.bind, hsame]
      cases p.feed lineFeed with
      | error error => rfl
      | ok next => exact ih next

/-! ## Bad encodings -/

theorem feeds_of_notMem {line : Bytes} (hline : lineFeed ∉ line) (p : Progress) :
    line.foldlM feed p = .ok { p with pending := line.reverse ++ p.pending } := by
  induction line generalizing p with
  | nil => rfl
  | cons b rest ih =>
      simp only [List.mem_cons, not_or] at hline
      rw [List.foldlM_cons, feed_of_ne (Ne.symm hline.1)]
      change rest.foldlM feed _ = _
      rw [ih hline.2]
      simp

theorem parse_of_notMem {line : Bytes} (hline : lineFeed ∉ line) :
    parse line = (readLine line 1).map Option.toList := by
  rw [parse, feeds_of_notMem hline]
  simp only [bind, Except.bind, finish, start, List.append_nil]
  by_cases hempty : line = []
  · simp [hempty, readLine_nil, Except.map, pure, Except.pure]
  · simp only [List.isEmpty_iff, List.reverse_eq_nil_iff, hempty, ↓reduceIte, endLine_eq,
      List.reverse_reverse]
    cases readLine line 1 with
    | error error => rfl
    | ok address? => cases address? <;> rfl

theorem readLine_eq_unreadable_iff (bytes : Bytes) (number : Nat) (fault : FileFault) :
    readLine bytes number = .error (.unreadable fault) ↔
      fault = .invalidUtf8 ∧ ∀ text, utf8 text ≠ bytes := by
  rw [← decodeUtf8_eq_error_iff, readLine]
  cases decodeUtf8 bytes with
  | error found => simp [Except.mapError, bind, Except.bind]
  | ok text =>
      simp only [Except.mapError, bind, Except.bind, parseLine]
      split
      · simp
      · cases address? (statement text.toList) <;> simp

theorem endsLine_append_lineFeed (bytes : Bytes) : EndsLine (bytes ++ [lineFeed]) :=
  Or.inr List.getLast?_concat

theorem EndsLine.append {x y : Bytes} (hx : EndsLine x) (hy : EndsLine y) : EndsLine (x ++ y) := by
  rcases hy with rfl | hlast
  · simpa using hx
  · exact Or.inr (by simp [hlast])

theorem parse_append_of_bad_line {line behind : Bytes} (hline : lineFeed ∉ line)
    (hbehind : behind = [] ∨ behind.head? = some lineFeed) {error : TraceError}
    (hread : readLine line 1 = .error error) : parse (line ++ behind) = .error error := by
  have hfirst : parse line = .error error := by rw [parse_of_notMem hline, hread, Except.map]
  rcases hbehind with rfl | hhead
  · rw [List.append_nil, hfirst]
  · rw [← List.cons_head?_tail hhead, List.append_cons,
      parse_append (endsLine_append_lineFeed line), parse_append_lineFeed, hfirst]
    rfl

/-- The trace has a line whose bytes are no text, and no bad line before. -/
def HasUndecodableLine (bytes : Bytes) : Prop :=
  ∃ before line behind, bytes = before ++ (line ++ behind) ∧ EndsLine before ∧
    lineFeed ∉ line ∧ (behind = [] ∨ behind.head? = some lineFeed) ∧
    (∃ addresses, parse before = .ok addresses) ∧ ∀ text, utf8 text ≠ line

theorem hasUndecodableLine_of_parse {bytes : Bytes} {fault : FileFault}
    (hparse : parse bytes = .error (.unreadable fault)) :
    fault = .invalidUtf8 ∧ HasUndecodableLine bytes := by
  induction hlength : bytes.length using Nat.strong_induction_on generalizing bytes with
  | _ length ih =>
      by_cases hmem : lineFeed ∈ bytes
      · -- The first line is the bad one, or it is read and the bad one follows.
        rcases List.eq_append_cons_of_mem hmem with ⟨line, rest, rfl, hline⟩
        have hfirst := parse_of_notMem hline
        rw [List.append_cons, parse_append (endsLine_append_lineFeed line), parse_append_lineFeed,
          hfirst] at hparse
        cases hread : readLine line 1 with
        | error error =>
            simp only [hread, Except.map, bind, Except.bind, Except.error.injEq] at hparse
            rw [hparse, readLine_eq_unreadable_iff] at hread
            exact ⟨hread.1, [], line, lineFeed :: rest, rfl, Or.inl rfl, hline, Or.inr rfl,
              ⟨[], rfl⟩, hread.2⟩
        | ok address? =>
            cases hrest : parse rest with
            | ok addresses =>
                simp [hread, hrest, Except.map, Except.mapError, bind, Except.bind, pure,
                  Except.pure] at hparse
            | error error =>
                have herror : error = .unreadable fault := by
                  cases error <;>
                    simp_all [Except.map, Except.mapError, bind, Except.bind, TraceError.later]
                rw [herror] at hrest
                have hshorter : rest.length < length := by simp [← hlength]; omega
                rcases ih _ hshorter hrest rfl with
                  ⟨hfault, before, bad, behind, rfl, hends, hbad, hbehind, ⟨_, hparsed⟩, hno⟩
                refine ⟨hfault, line ++ [lineFeed] ++ before, bad, behind, by simp,
                  (endsLine_append_lineFeed line).append hends, hbad, hbehind, ?_, hno⟩
                rw [parse_append (endsLine_append_lineFeed line), parse_append_lineFeed, hfirst,
                  hread, hparsed]
                exact ⟨_, rfl⟩
      · have hread := parse_of_notMem hmem
        rw [hparse] at hread
        cases hline : readLine bytes 1 with
        | ok address? => simp [hline, Except.map] at hread
        | error error =>
            simp only [hline, Except.map, Except.error.injEq] at hread
            rw [← hread, readLine_eq_unreadable_iff] at hline
            exact ⟨hline.1, [], bytes, [], by simp, Or.inl rfl, hmem, Or.inl rfl, ⟨[], rfl⟩,
              hline.2⟩

theorem parse_eq_unreadable_iff (bytes : Bytes) (fault : FileFault) :
    parse bytes = .error (.unreadable fault) ↔
      fault = .invalidUtf8 ∧ HasUndecodableLine bytes := by
  constructor
  · exact hasUndecodableLine_of_parse
  · rintro ⟨hfault, before, line, behind, rfl, hends, hline, hbehind, ⟨_, hparsed⟩, hno⟩
    have hread := (readLine_eq_unreadable_iff line 1 fault).mpr ⟨hfault, hno⟩
    rw [parse_append hends, hparsed, parse_append_of_bad_line hline hbehind hread]
    rfl

/-- A trace may be cut behind any line: the first part that has an error gives
the error, with lines counted from the start, and otherwise the addresses are
those of the parts.  Carriage returns before line feeds and a line feed at the
end make no difference.  A line that is no text is an error of its own, unless
an earlier line is bad.  A simulator replays a trace without errors as the list
of its addresses, and is left as it was by any other. -/
theorem parsed_line_by_line :
    (∀ x y, EndsLine x →
      (∀ a, parse x = .ok a →
        (∀ b, parse y = .ok b → parse (x ++ y) = .ok (a ++ b)) ∧
        ∀ error, parse y = .error error →
          parse (x ++ y) = .error (error.later (x.count lineFeed))) ∧
      ∀ error, parse x = .error error → parse (x ++ y) = .error error) ∧
    (∀ bytes returned, ReturnsAdded bytes returned → parse returned = parse bytes) ∧
    (∀ bytes, parse (bytes ++ [lineFeed]) = parse bytes) ∧
    (∀ bytes fault, parse bytes = .error (.unreadable fault) ↔
      fault = .invalidUtf8 ∧ HasUndecodableLine bytes) ∧
    ∀ (sim : Simulator) bytes,
      (∀ error, parse bytes = .error error →
        sim.runTrace bytes = .ok (some error, sim) ∧
        sim.replayTrace bytes = .ok (some error, Run.start sim)) ∧
      ∀ addresses, parse bytes = .ok addresses →
        sim.runTrace bytes = (sim.run addresses).map (none, ·) ∧
        sim.replayTrace bytes = (sim.replay addresses).map (none, ·) := by
  refine ⟨?_, ?_, parse_append_lineFeed, parse_eq_unreadable_iff, ?_⟩
  · intro x y hends
    rw [parse_append hends]
    constructor
    · intro a ha
      constructor
      · intro b hb
        rw [ha, hb]
        rfl
      · intro error herror
        rw [ha, herror]
        rfl
    · intro error herror
      rw [herror]
      rfl
  · intro bytes returned hadded
    rw [parse, parse, hadded.feeds_eq]
  · intro sim bytes
    constructor
    · intro error herror
      simp [Simulator.runTrace, Simulator.replayTrace, herror]
    · intro addresses haddresses
      simp [Simulator.runTrace, Simulator.replayTrace, haddresses]

/-- A good line, and a bad one in a second part with carriage returns. -/
theorem second_line_is_bad :
    parse ([49, 10] ++ [120, 13, 10, 50]) = .error (.malformed 2 "x") := by
  have hgood : parse [49, 10] = .ok [1] := by rfl
  have hbad : parse [120, 10, 50] = .error (.malformed 1 "x") := by rfl
  have hreturned := parsed_line_by_line.2.1 [120, 10, 50] [120, 13, 10, 50]
    (.keep 120 (.add (.keep 50 .nil)))
  have hends : EndsLine [49, 10] := Or.inr rfl
  rw [hbad] at hreturned
  exact ((parsed_line_by_line.1 _ _ hends).1 _ hgood).2 _ hreturned

end Trace

end PseudoLru
