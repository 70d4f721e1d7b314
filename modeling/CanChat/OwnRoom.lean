/-
CanChat/OwnRoom.lean

Which rooms can be reached under their own names.

The id goes into a replacement format, an attribute value and two string
literals, and is escaped for none of them.  Each of the three leaves some ids
alone (`Untouched`), and what one of them changes the others do not restore: a
format or a character reference loses a dollar sign or an ampersand, and an
escape is longer than what it stands for.

Design.  `signs` counts the dollar signs and ampersands of a replacement up to
the first quote, where the attribute ends; the text before the marker and the
text behind it have none there.
-/
import CanChat.RoomPage

namespace CanChat

namespace RoomPage

open JsonText Scanner

/-! ### Replacement formats -/

/-- The characters that make a format of the dollar sign before them. -/
def isFormat (v : UInt16) : Bool :=
  v == 0x24 || v == 0x26 || v == 0x60 || v == 0x27 || isDigit v

/-- No dollar sign is followed by what gives it a meaning. -/
def Unformatted (fmt : JsString) : Prop :=
  fmt.IsChain fun u v => u = 0x24 → isFormat v = false

/-- How many signs a piece writes at least. -/
def Piece.signs : Piece → ℕ
  | .unit u => if isSign u then 1 else 0
  | _ => 0

/-- How many signs the pieces of a format write at least. -/
def signs (ps : List Piece) : ℕ := (ps.map Piece.signs).sum

variable {fmt text tail value : JsString}

/-- Without a format every character is copied. -/
theorem pieces_of_unformatted (h : Unformatted fmt) : pieces fmt = fmt.map .unit := by
  unfold Unformatted at h
  fun_induction pieces fmt with
  | case1 => rfl
  | case2 => rfl
  | case10 v fmt _ _ _ _ _ ih =>
      rw [ih (List.isChain_cons_cons.mp h).2]
      rfl
  | case11 u fmt _ ih =>
      rw [ih h.tail]
      rfl
  | _ => exact absurd ((List.isChain_cons_cons.mp h).1 rfl) (by simp [isFormat, *])

theorem signs_cons (piece : Piece) (ps : List Piece) :
    signs (piece :: ps) = piece.signs + signs ps := by
  rw [signs, List.map_cons, List.sum_cons, signs]

/-- A format writes fewer signs than it has. -/
theorem signs_escape (piece : Piece) {rest : JsString} (v : UInt16) (hpiece : piece.signs = 0)
    (hrest : rest.countP isSign ≤ fmt.countP isSign)
    (ih : signs (pieces rest) ≤ rest.countP isSign) :
    signs (piece :: pieces rest) < (0x24 :: v :: fmt).countP isSign := by
  have hdollar : isSign 0x24 = true := by decide
  have hle : fmt.countP isSign ≤ (v :: fmt).countP isSign :=
    (List.sublist_cons_self v fmt).countP_le
  rw [signs_cons, hpiece, List.countP_cons_of_pos hdollar]
  omega

/-- A replacement loses signs unless it is the text itself. -/
theorem signs_pieces (fmt : JsString) :
    signs (pieces fmt) ≤ fmt.countP isSign ∧
      (fmt.countP isSign ≤ signs (pieces fmt) → Unformatted fmt) := by
  have hdollar : isSign 0x24 = true := by decide
  fun_induction pieces fmt with
  | case1 => exact ⟨le_rfl, fun _ => .nil⟩
  | case2 => exact ⟨by decide, fun _ => .singleton _⟩
  -- a dollar sign that starts no format is copied
  | case10 v fmt _ _ _ _ _ ih =>
      rw [signs_cons, List.countP_cons_of_pos hdollar]
      have hone : (Piece.unit 0x24).signs = 1 := rfl
      refine ⟨by omega, fun hle => List.isChain_cons_cons.mpr ⟨fun _ => ?_, ih.2 (by omega)⟩⟩
      simp [isFormat, *]
  -- any other unit is copied
  | case11 u fmt hu ih =>
      rw [signs_cons, List.countP_cons]
      have hunit : (Piece.unit u).signs = if isSign u = true then 1 else 0 := rfl
      refine ⟨by omega, fun hle => List.isChain_cons.mpr ⟨fun v _ heq => absurd heq hu, ?_⟩⟩
      exact ih.2 (by omega)
  -- `$$` gives one sign for two
  | case3 fmt ih =>
      rw [signs_cons, List.countP_cons_of_pos hdollar, List.countP_cons_of_pos hdollar]
      have hone : (Piece.unit 0x24).signs = 1 := rfl
      exact ⟨by omega, fun hle => absurd hle (by omega)⟩
  -- every other format gives no sign for its dollar sign
  | case7 v =>
      have hlt : signs [.capture (digitValue v)] < [0x24, v].countP isSign :=
        signs_escape _ v rfl (le_refl ([].countP isSign)) le_rfl
      exact ⟨hlt.le, fun hle => absurd hle hlt.not_ge⟩
  | case8 v _ _ _ _ _ w fmt _ ih =>
      have hlt := signs_escape (.capture (10 * digitValue v + digitValue w)) v rfl
        ((List.sublist_cons_self w fmt).countP_le) ih.1
      exact ⟨hlt.le, fun hle => absurd hle hlt.not_ge⟩
  | case9 v _ _ _ _ _ w fmt _ ih =>
      have hlt := signs_escape (.capture (digitValue v)) v rfl le_rfl ih.1
      exact ⟨hlt.le, fun hle => absurd hle hlt.not_ge⟩
  | case4 fmt _ ih =>
      have hlt := signs_escape .whole 0x26 rfl le_rfl ih.1
      exact ⟨hlt.le, fun hle => absurd hle hlt.not_ge⟩
  | case5 fmt _ _ ih =>
      have hlt := signs_escape .before 0x60 rfl le_rfl ih.1
      exact ⟨hlt.le, fun hle => absurd hle hlt.not_ge⟩
  | case6 fmt _ _ _ ih =>
      have hlt := signs_escape .after 0x27 rfl le_rfl ih.1
      exact ⟨hlt.le, fun hle => absurd hle hlt.not_ge⟩

/-- Without a format the replacement is the text itself. -/
theorem format_of_unformatted (h : Unformatted fmt) (before after : JsString) :
    format fmt before after = fmt := by
  rw [format, pieces_of_unformatted h, List.flatMap_map]
  exact List.flatMap_singleton' fmt

/-! ### The page -/

/-- The units of a match are skipped. -/
theorem regexReplace_skip (fmt : JsString) (skip : ℕ) (since text : JsString) :
    regexReplace fmt skip since text = regexReplace fmt 0 since (text.drop skip) := by
  induction text generalizing skip with
  | nil => cases skip <;> rfl
  | cons u text ih =>
      rcases skip with - | skip
      · rfl
      · rw [regexReplace, List.drop_succ_cons]
        exact ih skip

/-- A text without the marker is left alone. -/
theorem regexReplace_unmarked (h : ¬ marker <:+: text) (fmt since : JsString) :
    regexReplace fmt 0 since text = text := by
  induction text generalizing since with
  | nil => rfl
  | cons u text ih =>
      have hhead : ¬ marker.isPrefixOf (u :: text) = true := fun hprefix =>
        h (List.isPrefixOf_iff_prefix.mp hprefix).isInfix
      have htail : ¬ marker <:+: text := fun hin => h (hin.trans (List.suffix_cons u text).isInfix)
      rw [regexReplace, if_neg hhead, ih htail]

/-- The marker is replaced, and the search goes on behind it. -/
theorem regexReplace_marker (fmt since tail : JsString) :
    regexReplace fmt 0 since (marker ++ tail) =
      format fmt since tail ++ regexReplace fmt 0 [] tail := by
  have hmarker : marker = 0x25 :: marker.tail := by decide
  have hprefix : marker.isPrefixOf (0x25 :: (marker.tail ++ tail)) = true := by
    rw [← List.cons_append, ← hmarker]
    exact List.isPrefixOf_iff_prefix.mpr (List.prefix_append _ _)
  have hskip : marker.length - 1 = marker.tail.length := by decide
  have hlength : marker.length = (0x25 :: marker.tail).length := by decide
  rw [hmarker, List.cons_append, regexReplace, if_pos hprefix, regexReplace_skip, hskip,
    List.drop_left, hlength, ← List.cons_append, List.drop_left]

/-- The first match is the one behind a text in which there is none and which
ends in a slash, as the marker has no slash. -/
theorem regexReplace_match (h : ¬ marker <:+: text ++ [0x2F]) (fmt since tail : JsString) :
    regexReplace fmt 0 since (text ++ 0x2F :: (marker ++ tail)) =
      text ++ 0x2F ::
        (format fmt (since ++ text ++ [0x2F]) tail ++ regexReplace fmt 0 [] tail) := by
  have hslash : (0x2F : UInt16) ∉ marker := by decide
  have hnext : ∀ text : JsString, ¬ marker <:+: text ++ [0x2F] →
      ¬ marker.isPrefixOf (text ++ 0x2F :: (marker ++ tail)) = true := by
    intro text h hprefix
    have hprefix := List.isPrefixOf_iff_prefix.mp hprefix
    have hsplit : text ++ [0x2F] <+: text ++ 0x2F :: (marker ++ tail) :=
      ⟨marker ++ tail, by simp⟩
    rcases List.prefix_or_prefix_of_prefix hprefix hsplit with hin | hover
    · exact h hin.isInfix
    · exact hslash (hover.subset (by simp))
  induction text generalizing since with
  | nil =>
      have hhead : ¬ marker.isPrefixOf (0x2F :: (marker ++ tail)) = true := hnext [] h
      rw [List.nil_append, regexReplace, if_neg hhead, regexReplace_marker, List.append_nil]
      rfl
  | cons u text ih =>
      have htail : ¬ marker <:+: text ++ [0x2F] := fun hin =>
        h (hin.trans (List.suffix_cons u (text ++ [0x2F])).isInfix)
      rw [List.cons_append, regexReplace, ← List.cons_append, if_neg (hnext _ h), ih htail]
      simp

variable {refs : References} {t : Template} {id : RoomId} {consumed rest : JsString}

/-- The page up to the address of the script. -/
def Template.start (t : Template) : JsString := pageStart ++ t.middle ++ ascii "<script src=\""

/-- The page's text up to the marker ends in `/room/`. -/
theorem before_eq (t : Template) : t.before = t.start ++ ascii "/room" ++ [0x2F] := by
  have hroom :
      ascii "<script src=\"/room/" = ascii "<script src=\"" ++ ascii "/room" ++ [0x2F] := by
    decide
  rw [Template.before, hroom, Template.start]
  simp only [List.append_assoc]

/-- The page with the id in it. -/
theorem chatHTML_eq (t : Template) (id : RoomId) :
    chatHTML t id = t.start ++ (ascii "/room/" ++ format id.text t.before pageEnd ++ pageEnd) := by
  have hunmarked : ¬ marker <:+: t.start ++ ascii "/room" ++ [0x2F] := by
    rw [← before_eq]
    exact t.unmarked
  have hend : ¬ marker <:+: pageEnd := by decide
  have hroom : ascii "/room/" = ascii "/room" ++ [0x2F] := by decide
  have htext : t.text = (t.start ++ ascii "/room") ++ 0x2F :: (marker ++ pageEnd) := by
    rw [Template.text, before_eq]
    simp
  rw [chatHTML, htext, regexReplace_match hunmarked, regexReplace_unmarked hend, List.nil_append,
    ← before_eq, hroom]
  simp

/-- The `src` of the script is what the attribute's value is read as. -/
theorem scriptSrc_chatHTML (refs : References) (t : Template) (id : RoomId) :
    scriptSrc refs t (chatHTML t id) =
      (scan (attributeStep refs) 0 (normalizeNewlines false
        (ascii "/room/" ++ format id.text t.before pageEnd ++ pageEnd))).map Prod.fst := by
  have hstart : (pageStart ++ t.middle ++ ascii "<script src=\"").isPrefixOf? (chatHTML t id) =
      some (ascii "/room/" ++ format id.text t.before pageEnd ++ pageEnd) := by
    rw [List.isPrefixOf?_eq_some_iff_append_eq, chatHTML_eq]
    rfl
  rw [scriptSrc, hstart]
  rfl

/-! ### Attribute values -/

/-- Only a quotation mark ends the attribute. -/
theorem attributeStep_close {u : UInt16} (h : attributeStep refs u text = .close) : u = 0x22 := by
  unfold attributeStep at h
  split at h
  · assumption
  · split at h
    · split at h
      · cases h
      · cases h
    · split at h
      · cases h
      · cases h

/-- A character reference is at least as long as what it stands for. -/
theorem shrinking_attributeStep (refs : References) : Shrinking (attributeStep refs) := by
  intro u text value more h
  unfold attributeStep at h
  split at h
  · cases h
  · split at h
    · split at h
      · cases h
        exact .inl ⟨rfl, rfl⟩
      · next hdecode =>
        cases h
        exact .inr (refs.length_le hdecode)
    · split at h
      · cases h
        exact .inl ⟨rfl, rfl⟩
      · cases h
        exact .inl ⟨rfl, rfl⟩

/-- What is read in one step has no quotation mark and gives no sign it does not have. -/
theorem attributeStep_emit {u : UInt16} {token : JsString}
    (h : attributeStep refs u (token ++ text) = .emit value token.length) :
    0x22 ∉ u :: token ∧ value.countP isSign ≤ (u :: token).countP isSign := by
  unfold attributeStep at h
  split at h
  · cases h
  next hquote =>
  have hsingle : token.length = 0 → 0x22 ∉ u :: token := by
    intro hlength
    rw [List.length_eq_zero_iff.mp hlength, List.mem_singleton]
    exact fun heq => hquote heq.symm
  split at h
  · next hampersand =>
    split at h
    · obtain ⟨rfl, hlength⟩ := Step.emit.inj h
      rw [List.length_eq_zero_iff.mp hlength.symm]
      exact ⟨by simpa using Ne.symm hquote, le_rfl⟩
    · next hdecode =>
      obtain ⟨rfl, rfl⟩ := Step.emit.inj h
      have hunquoted := refs.unquoted hdecode
      rw [List.take_left] at hunquoted
      have hsign : isSign u = true := by
        rw [hampersand]
        decide
      rw [List.mem_cons, not_or, List.countP_cons_of_pos hsign]
      exact ⟨⟨Ne.symm hquote, hunquoted⟩, (refs.signs_le hdecode).trans (Nat.le_add_left _ _)⟩
  · split at h
    · obtain ⟨rfl, hlength⟩ := Step.emit.inj h
      exact ⟨hsingle hlength.symm, Nat.zero_le _⟩
    · obtain ⟨rfl, hlength⟩ := Step.emit.inj h
      rw [List.length_eq_zero_iff.mp hlength.symm]
      exact ⟨by simpa using Ne.symm hquote, le_rfl⟩

/-- The value ends at the first quote, and no reference makes a sign. -/
theorem attribute_reads (h : Reads (attributeStep refs) tail consumed value) :
    0x22 ∉ consumed ∧ value.countP isSign ≤ consumed.countP isSign := by
  induction h with
  | nil => exact ⟨List.not_mem_nil, le_rfl⟩
  | cons hemit _ ih =>
      rw [List.append_assoc] at hemit
      obtain ⟨hunquoted, hsigns⟩ := attributeStep_emit hemit
      rw [List.mem_append, not_or, List.countP_append, List.countP_append]
      exact ⟨⟨hunquoted, ih.1⟩, Nat.add_le_add hsigns ih.2⟩

/-! ### Signs up to the first quote -/

/-- What of a text can be in the attribute. -/
def unquoted (text : JsString) : JsString := text.takeWhile fun u => u != 0x22

/-- The text up to the first quotation mark. -/
theorem unquoted_eq (h : 0x22 ∉ consumed) (rest : JsString) :
    unquoted (consumed ++ 0x22 :: rest) = consumed := by
  unfold unquoted
  rw [List.takeWhile_append_of_pos]
  · simp
  · intro u hu
    simpa using fun heq : u = 0x22 => h (heq ▸ hu)

theorem signs_unquoted_append (text tail : JsString) :
    (unquoted (text ++ tail)).countP isSign ≤
      (unquoted text).countP isSign + (unquoted tail).countP isSign := by
  induction text with
  | nil => exact Nat.le_add_left _ _
  | cons u text ih =>
      unfold unquoted at ih ⊢
      rw [List.cons_append, List.takeWhile_cons, List.takeWhile_cons]
      split
      · rw [List.countP_cons, List.countP_cons]
        omega
      · exact Nat.zero_le _

/-- The page has no signs before its first quote, and none behind the marker. -/
theorem signs_expand (t : Template) (piece : Piece) :
    (unquoted (piece.expand t.before pageEnd)).countP isSign ≤ piece.signs := by
  have hmarker : (unquoted marker).countP isSign = 0 := by decide
  cases piece with
  | unit u =>
      rw [Piece.expand, Piece.signs, ← List.countP_singleton]
      exact (List.takeWhile_sublist _).countP_le
  | whole => exact hmarker.le
  | before =>
      have hquote : pageStart = ascii "<!DOCTYPE html>\n<html lang=" ++ [0x22] := by decide
      have hstart : 0x22 ∉ ascii "<!DOCTYPE html>\n<html lang=" := by decide
      have hbefore : t.before = ascii "<!DOCTYPE html>\n<html lang=" ++
          0x22 :: (t.middle ++ ascii "<script src=\"/room/") := by
        rw [Template.before, hquote]
        simp
      have hsigns : (ascii "<!DOCTYPE html>\n<html lang=").countP isSign = 0 := by decide
      rw [Piece.expand, hbefore, unquoted_eq hstart _, hsigns]
      exact Nat.zero_le _
  | after =>
      have hend : (unquoted pageEnd).countP isSign = 0 := by decide
      exact hend.le
  | capture n =>
      rw [Piece.expand]
      split
      · exact hmarker.le
      · exact le_rfl

/-- The page adds no signs to those of the replacement. -/
theorem signs_page (t : Template) (fmt : JsString) :
    (unquoted (ascii "/room/" ++ format fmt t.before pageEnd ++ pageEnd)).countP isSign ≤
      signs (pieces fmt) := by
  have hroom : (unquoted (ascii "/room/")).countP isSign = 0 := by decide
  have hend : (unquoted pageEnd).countP isSign = 0 := by decide
  have hformat : ∀ ps : List Piece,
      (unquoted (ps.flatMap (Piece.expand t.before pageEnd))).countP isSign ≤ signs ps := by
    intro ps
    induction ps with
    | nil => exact le_rfl
    | cons piece ps ih =>
        rw [List.flatMap_cons, signs_cons]
        exact (signs_unquoted_append _ _).trans (Nat.add_le_add (signs_expand t piece) ih)
  calc (unquoted (ascii "/room/" ++ format fmt t.before pageEnd ++ pageEnd)).countP isSign
      ≤ (unquoted (ascii "/room/" ++ format fmt t.before pageEnd)).countP isSign + 0 :=
        hend ▸ signs_unquoted_append _ pageEnd
    _ ≤ 0 + (unquoted (format fmt t.before pageEnd)).countP isSign :=
        hroom ▸ signs_unquoted_append (ascii "/room/") _
    _ ≤ signs (pieces fmt) := by
        rw [Nat.zero_add]
        exact hformat (pieces fmt)

/-- Newlines are normalised without a change to the signs before the quotation mark. -/
theorem signs_normalizeNewlines (afterReturn : Bool) (text : JsString) :
    (unquoted (normalizeNewlines afterReturn text)).countP isSign =
      (unquoted text).countP isSign := by
  unfold unquoted
  induction text generalizing afterReturn with
  | nil => rfl
  | cons u text ih =>
      rw [normalizeNewlines]
      split
      · next hfeed =>
        obtain ⟨-, rfl⟩ : afterReturn = true ∧ u = 0x0A := by simpa using hfeed
        exact ih false
      · split
        · next hreturn =>
          rw [hreturn]
          exact ih true
        · rw [List.takeWhile_cons, List.takeWhile_cons]
          split
          · rw [List.countP_cons, List.countP_cons, ih]
          · rfl

/-- A text without a carriage return is left alone. -/
theorem normalizeNewlines_eq (h : 0x0D ∉ text) : normalizeNewlines false text = text := by
  induction text with
  | nil => rfl
  | cons u text ih =>
      rw [List.mem_cons, not_or] at h
      rw [normalizeNewlines, Bool.false_and, if_neg Bool.false_ne_true, if_neg (Ne.symm h.1),
        ih h.2]

/-! ### The address of the script -/

theorem pageEnd_eq : pageEnd = ascii "/chat.js" ++ 0x22 :: ascii "></script>\n\n</html>" := by
  decide

/-- The characters that the attribute reads as themselves. -/
theorem attributeStep_emit_self (refs : References) (u : UInt16) (text : JsString) :
    attributeStep refs u text = .emit [u] 0 ↔
      u ≠ 0x22 ∧ u ≠ 0 ∧ (u = 0x26 → refs.decode text = none) := by
  unfold attributeStep
  constructor
  · intro h
    split at h
    · cases h
    next hquote =>
    split at h
    · next hampersand =>
      refine ⟨hquote, by rw [hampersand]; decide, fun _ => ?_⟩
      split at h
      · assumption
      · next hdecode =>
        obtain ⟨rfl, rfl⟩ := Step.emit.inj h
        -- one symbol for none behind the ampersand
        exact absurd (refs.length_le hdecode) (by simp)
    · next hampersand =>
      split at h
      · next hzero =>
        rw [hzero] at h
        cases h
      · next hzero => exact ⟨hquote, hzero, fun heq => absurd heq hampersand⟩
  · rintro ⟨hquote, hzero, hdecode⟩
    rw [if_neg hquote, if_neg hzero]
    split
    · next hampersand => rw [hdecode hampersand]
    · rfl

/-- The texts that the attribute reads as themselves. -/
theorem verbatim_attribute :
    Verbatim (attributeStep refs) text tail ↔
      ∀ before u after, text = before ++ u :: after →
        u ≠ 0x22 ∧ u ≠ 0 ∧ (u = 0x26 → refs.decode (after ++ tail) = none) :=
  forall₃_congr fun _ u after => imp_congr_right fun _ =>
    attributeStep_emit_self refs u (after ++ tail)

/-- The address is read as itself exactly if the id in it is. -/
theorem verbatim_address (refs : References) (hquote : 0x22 ∉ text) :
    Verbatim (attributeStep refs) (ascii "/room/" ++ text ++ ascii "/chat.js")
        (0x22 :: ascii "></script>\n\n</html>") ↔
      0 ∉ text ∧ ∀ before after, text = before ++ 0x26 :: after →
        refs.decode (after ++ pageEnd) = none := by
  have hsurround : ∀ (part tail : JsString), (part = ascii "/room/" ∨ part = ascii "/chat.js") →
      Verbatim (attributeStep refs) part tail := by
    intro part tail hpart
    refine verbatim_attribute.mpr fun before u after heq => ?_
    have hmem : u ∈ part := by
      rw [heq]
      exact List.mem_append_right _ List.mem_cons_self
    have hplain : ∀ u ∈ ascii "/room/" ++ ascii "/chat.js", u ≠ 0x22 ∧ u ≠ 0 ∧ u ≠ 0x26 :=
      List.all_iff_forall_prop.mp (by decide)
    obtain ⟨hunquoted, hzero, hampersand⟩ := hplain u (by
      rcases hpart with rfl | rfl
      · exact List.mem_append_left _ hmem
      · exact List.mem_append_right _ hmem)
    exact ⟨hunquoted, hzero, fun heq => absurd heq hampersand⟩
  rw [verbatim_append, verbatim_append, ← pageEnd_eq]
  constructor
  · rintro ⟨⟨-, h⟩, -⟩
    rw [verbatim_attribute] at h
    refine ⟨fun hmem => ?_, fun before after heq => (h before 0x26 after heq).2.2 rfl⟩
    obtain ⟨before, after, heq⟩ := List.append_of_mem hmem
    exact (h before 0 after heq).2.1 rfl
  · rintro ⟨hzero, hdecode⟩
    refine ⟨⟨hsurround _ _ (.inl rfl), ?_⟩, hsurround _ _ (.inr rfl)⟩
    refine verbatim_attribute.mpr fun before u after heq => ?_
    have hmem : u ∈ text := by
      rw [heq]
      exact List.mem_append_right _ List.mem_cons_self
    refine ⟨fun h => hquote (h ▸ hmem), fun h => hzero (h ▸ hmem), fun hampersand => ?_⟩
    rw [hampersand] at heq
    exact hdecode before after heq

/-- The address is that of the id exactly when neither the format nor HTML
changes it. -/
theorem scriptSrc_iff (hquote : 0x22 ∉ id.text) (hreturn : 0x0D ∉ id.text) :
    scriptSrc refs t (chatHTML t id) = some (ascii "/room/" ++ id.text ++ ascii "/chat.js") ↔
      Unformatted id.text ∧ 0 ∉ id.text ∧ ∀ before after, id.text = before ++ 0x26 :: after →
        refs.decode (after ++ pageEnd) = none := by
  let address : JsString := ascii "/room/" ++ id.text ++ ascii "/chat.js"
  -- no quotation mark ends the attribute before the page's own does
  have hunquoted : 0x22 ∉ address := by
    have hroom : 0x22 ∉ ascii "/room/" ∧ 0x22 ∉ ascii "/chat.js" := by decide
    simp [address, hroom, hquote]
  -- without a carriage return the newline normalisation changes nothing
  have hplain : normalizeNewlines false (ascii "/room/" ++ id.text ++ pageEnd) =
      address ++ 0x22 :: ascii "></script>\n\n</html>" := by
    have hnone : 0x0D ∉ ascii "/room/" ∧ 0x0D ∉ pageEnd := by decide
    rw [normalizeNewlines_eq (by simp [hnone, hreturn]), pageEnd_eq]
    simp [address]
  rw [scriptSrc_chatHTML]
  constructor
  · intro h
    obtain ⟨⟨_, rest⟩, hscan, rfl⟩ := Option.map_eq_some_iff.mp h
    obtain ⟨consumed, close, htext, hclose, hread⟩ := reads_of_scan hscan
    obtain rfl := attributeStep_close hclose
    obtain ⟨hconsumed, hsigns⟩ := attribute_reads hread
    -- every sign of the id is in the attribute that was read, and a format would have lost one
    have hunformatted : Unformatted id.text := by
      refine (signs_pieces id.text).2 ?_
      calc id.text.countP isSign
          ≤ (ascii "/room/" ++ id.text ++ ascii "/chat.js").countP isSign := by
            rw [List.countP_append, List.countP_append]
            omega
        _ ≤ consumed.countP isSign := hsigns
        _ = (unquoted (ascii "/room/" ++ format id.text t.before pageEnd ++ pageEnd)).countP
              isSign := by
            rw [← signs_normalizeNewlines false, htext, unquoted_eq hconsumed _]
        _ ≤ signs (pieces id.text) := signs_page t id.text
    rw [format_of_unformatted hunformatted, hplain] at htext
    -- both are the text up to the first quotation mark
    obtain rfl : address = consumed := by
      rw [← unquoted_eq hunquoted (ascii "></script>\n\n</html>"), htext,
        unquoted_eq hconsumed _]
    have hrest : rest = ascii "></script>\n\n</html>" :=
      (List.cons.inj (List.append_cancel_left htext)).2.symm
    have hverbatim := hread.verbatim (shrinking_attributeStep refs) rfl
    rw [hrest] at hverbatim
    obtain ⟨hzero, hdecode⟩ := (verbatim_address refs hquote).mp hverbatim
    exact ⟨hunformatted, hzero, hdecode⟩
  · rintro ⟨hunformatted, hzero, hdecode⟩
    have hverbatim : Verbatim (attributeStep refs) address
        (0x22 :: ascii "></script>\n\n</html>") :=
      (verbatim_address refs hquote).mpr ⟨hzero, hdecode⟩
    rw [format_of_unformatted hunformatted, hplain, scan_verbatim hverbatim rfl]
    rfl

/-! ### String literals -/

theorem hexValue_quote : hexValue 0x22 = none := by decide

theorem octalValue_quote : octalValue 0x22 = none := by decide

/-- Hexadecimal digits are no quotation marks. -/
theorem unquoted_readHex {n number result : ℕ} (h : readHex n number text = some result) :
    0x22 ∉ text.take n := by
  induction n generalizing number text with
  | zero => exact List.not_mem_nil
  | succ n ih =>
      rcases text with - | ⟨u, text⟩
      · cases h
      · rw [readHex] at h
        obtain ⟨digit, hdigit, hrest⟩ := Option.bind_eq_some_iff.mp h
        rw [List.take_succ_cons, List.mem_cons, not_or]
        refine ⟨fun hquote => ?_, ih hrest⟩
        rw [← hquote, hexValue_quote] at hdigit
        cases hdigit

/-- Nor is anything in an escape by code point. -/
theorem unquoted_readCodePoint {number count point total : ℕ}
    (h : readCodePoint number count text = some (point, total)) :
    ∃ digits, total = count + digits ∧ 0x22 ∉ text.take (digits + 1) := by
  induction text generalizing number count with
  | nil => cases h
  | cons u text ih =>
      rw [readCodePoint] at h
      split at h
      · next hbrace =>
        split at h
        · cases h
        · obtain ⟨-, rfl⟩ := Prod.mk.inj (Option.some.inj h)
          refine ⟨0, rfl, ?_⟩
          rw [hbrace]
          simp
      · obtain ⟨digit, hdigit, hrest⟩ := Option.bind_eq_some_iff.mp h
        split at hrest
        · cases hrest
        · obtain ⟨digits, rfl, hunquoted⟩ := ih hrest
          refine ⟨digits + 1, by omega, ?_⟩
          rw [List.take_succ_cons, List.mem_cons, not_or]
          refine ⟨fun hquote => ?_, hunquoted⟩
          rw [← hquote, hexValue_quote] at hdigit
          cases hdigit

theorem length_codePointUnits (c : ℕ) : (codePointUnits c).length ≤ 2 := by
  unfold codePointUnits
  split
  · exact Nat.le_succ 1
  · exact le_rfl

theorem cons_of_octal {digit : ℕ} (h : text.head?.bind octalValue = some digit) :
    ∃ u, u ≠ 0x22 ∧ text = u :: text.tail := by
  obtain ⟨u, hhead, hdigit⟩ := Option.bind_eq_some_iff.mp h
  refine ⟨u, fun hquote => ?_, (List.cons_head?_tail hhead).symm⟩
  rw [hquote, octalValue_quote] at hdigit
  cases hdigit

/-- An octal escape is at least as long as what it stands for. -/
theorem legacyOctal_spec (first : ℕ) (text : JsString) :
    (legacyOctal first text).1.length ≤ (legacyOctal first text).2 ∧
      0x22 ∉ text.take ((legacyOctal first text).2 - 1) := by
  unfold legacyOctal
  split
  · exact ⟨le_rfl, List.not_mem_nil⟩
  next second hsecond =>
  obtain ⟨u, hu, htext⟩ := cons_of_octal hsecond
  have hone : 0x22 ∉ text.take 1 := by
    rw [htext]
    simpa using Ne.symm hu
  split
  · exact ⟨Nat.le_succ 1, hone⟩
  next third hthird =>
  obtain ⟨v, hv, htail⟩ := cons_of_octal hthird
  split
  · refine ⟨by simp, ?_⟩
    rw [htext, htail]
    simpa using ⟨Ne.symm hu, Ne.symm hv⟩
  · exact ⟨Nat.le_succ 1, hone⟩

/-- An escape is no shorter than its value, and takes no quote along unless it
is the escape of a quote. -/
theorem escapeSequence_spec {n : ℕ} (h : escapeSequence text = some (value, n)) :
    value.length ≤ n ∧ (0x22 ∈ text.take n → n = 1) := by
  rcases text with - | ⟨u, text⟩
  · cases h
  -- a sequence that consumes no quote after its first character consumes one only as that character
  have hcons : ∀ {n : ℕ}, u ≠ 0x22 → 0x22 ∉ text.take n →
      (0x22 ∈ (u :: text).take (n + 1) → n + 1 = 1) := by
    intro n hu htext hmem
    rw [List.take_succ_cons, List.mem_cons] at hmem
    exact absurd hmem (not_or.mpr ⟨Ne.symm hu, htext⟩)
  rw [escapeSequence] at h
  split at h
  -- a line continuation
  · next hreturn =>
    obtain ⟨rfl, rfl⟩ := Prod.mk.inj (Option.some.inj h)
    refine ⟨Nat.zero_le _, fun hmem => ?_⟩
    split at hmem
    · next hfeed =>
      rw [← List.cons_head?_tail hfeed, hreturn] at hmem
      simp at hmem
    · next hfeed => exact if_neg hfeed
  split at h
  · obtain ⟨rfl, rfl⟩ := Prod.mk.inj (Option.some.inj h)
    exact ⟨Nat.zero_le _, fun _ => rfl⟩
  split at h
  -- two hexadecimal digits
  · next hhex =>
    obtain ⟨number, hread, heq⟩ := Option.map_eq_some_iff.mp h
    obtain ⟨rfl, rfl⟩ := Prod.mk.inj heq
    exact ⟨Nat.le_add_left 1 2, hcons (hhex ▸ by decide) (unquoted_readHex hread)⟩
  split at h
  · next hunicode =>
    split at h
    -- a code point in braces
    · next hbrace =>
      obtain ⟨⟨point, total⟩, hread, heq⟩ := Option.map_eq_some_iff.mp h
      obtain ⟨rfl, rfl⟩ := Prod.mk.inj heq
      obtain ⟨digits, htotal, hunquoted⟩ := unquoted_readCodePoint hread
      have hlength := length_codePointUnits point
      have htake : 0x22 ∉ text.take (total + 2) := by
        rw [← List.cons_head?_tail hbrace, List.take_succ_cons, List.mem_cons, not_or]
        have hdigits : total + 1 = digits + 1 := by omega
        rw [hdigits]
        exact ⟨by decide, hunquoted⟩
      exact ⟨hlength.trans (Nat.le_add_left 2 (total + 1)), hcons (hunicode ▸ by decide) htake⟩
    -- four hexadecimal digits
    · obtain ⟨number, hread, heq⟩ := Option.map_eq_some_iff.mp h
      obtain ⟨rfl, rfl⟩ := Prod.mk.inj heq
      exact ⟨Nat.le_add_left 1 4, hcons (hunicode ▸ by decide) (unquoted_readHex hread)⟩
  split at h
  -- an octal escape
  · next first hfirst =>
    obtain ⟨hlength, hunquoted⟩ := legacyOctal_spec first text
    have heq := Option.some.inj h
    rw [heq] at hlength hunquoted
    refine ⟨hlength, fun hmem => ?_⟩
    rcases n with - | n
    · cases hmem
    · refine hcons (fun hquote => ?_) hunquoted hmem
      rw [hquote, octalValue_quote] at hfirst
      cases hfirst
  · obtain ⟨rfl, rfl⟩ := Prod.mk.inj (Option.some.inj h)
    exact ⟨le_rfl, fun _ => rfl⟩

/-- Only a quotation mark ends the literal. -/
theorem literalStep_close {u : UInt16} (h : literalStep u text = .close) : u = 0x22 := by
  unfold literalStep at h
  split at h
  · assumption
  · split at h
    · cases h
    · split at h
      · split at h
        · cases h
        · cases h
      · cases h

/-- An escape is at least as long as what it stands for. -/
theorem shrinking_literalStep : Shrinking literalStep := by
  intro u text value more h
  unfold literalStep at h
  split at h
  · cases h
  split at h
  · cases h
  split at h
  · split at h
    · cases h
    · next hescape =>
      cases h
      exact .inr (escapeSequence_spec hescape).1
  · cases h
    exact .inl ⟨rfl, rfl⟩

/-- What stands for itself in a string literal. -/
def isPlain (u : UInt16) : Bool := u != 0x22 && u != 0x5C && u != 0x0A && u != 0x0D

/-- The characters that a literal reads as themselves. -/
theorem literalStep_emit_self (u : UInt16) (text : JsString) :
    literalStep u text = .emit [u] 0 ↔ isPlain u = true := by
  unfold literalStep isPlain
  simp only [Bool.and_eq_true, bne_iff_ne]
  constructor
  · intro h
    split at h
    · cases h
    next hquote =>
    split at h
    · cases h
    next hline =>
    split at h
    · split at h
      · cases h
      · next hescape =>
        obtain ⟨rfl, rfl⟩ := Step.emit.inj h
        exact absurd (escapeSequence_spec hescape).1 (by simp)
    · next hescape => exact ⟨⟨⟨hquote, hescape⟩, (not_or.mp hline).1⟩, (not_or.mp hline).2⟩
  · rintro ⟨⟨⟨hquote, hescape⟩, hfeed⟩, hreturn⟩
    rw [if_neg hquote, if_neg (not_or.mpr ⟨hfeed, hreturn⟩), if_neg hescape]

/-- The texts that a literal reads as themselves. -/
theorem verbatim_literal : Verbatim literalStep text tail ↔ ∀ u ∈ text, isPlain u = true := by
  constructor
  · intro h u hmem
    obtain ⟨before, after, heq⟩ := List.append_of_mem hmem
    exact (literalStep_emit_self u _).mp (h before u after heq)
  · intro h before u after heq
    refine (literalStep_emit_self u _).mpr (h u ?_)
    rw [heq]
    exact List.mem_append_right _ List.mem_cons_self

/-- Only the escape of a quote takes a quote along. -/
theorem length_of_quote {u : UInt16} {token : JsString}
    (h : literalStep u (token ++ text) = .emit value token.length) (hquote : 0x22 ∈ token) :
    token.length = 1 := by
  have hsingle : 0 ≠ token.length := fun hzero => by
    rw [List.length_eq_zero_iff.mp hzero.symm] at hquote
    cases hquote
  unfold literalStep at h
  split at h
  · cases h
  split at h
  · cases h
  split at h
  · split at h
    · cases h
    · next hescape =>
      obtain ⟨rfl, rfl⟩ := Step.emit.inj h
      refine (escapeSequence_spec hescape).2 ?_
      rw [List.take_left]
      exact hquote
  · exact absurd (Step.emit.inj h).2 hsingle

/-- A literal does not go on in the next line. -/
theorem not_reads_semicolon (h : Reads literalStep tail consumed value)
    (htail : tail.head? = some 0x22) : consumed ++ tail ≠ 0x3B :: 0x0A :: rest := by
  intro heq
  cases h with
  | nil =>
      rw [List.nil_append] at heq
      rw [heq] at htail
      cases htail
  | @cons u token consumed _ _ hemit hread =>
      rw [List.append_assoc, List.cons_append] at heq
      obtain ⟨rfl, hline⟩ := List.cons.inj heq
      have hsemicolon : ∀ text, literalStep 0x3B text = .emit [0x3B] 0 := fun text =>
        (literalStep_emit_self 0x3B text).mpr rfl
      obtain ⟨-, htoken⟩ := Step.emit.inj ((hsemicolon _).symm.trans hemit)
      rw [List.length_eq_zero_iff.mp htoken.symm, List.nil_append] at hline
      cases hread with
      | nil =>
          rw [List.nil_append] at hline
          rw [hline] at htail
          cases htail
      | cons hemit' _ =>
          rw [List.append_assoc, List.cons_append] at hline
          rw [(List.cons.inj hline).1] at hemit'
          cases hemit'

/-- So what ends in a quote, a semicolon and a newline is not read any further. -/
theorem length_le_of_reads {content : JsString} (h : Reads literalStep tail consumed value)
    (htail : tail.head? = some 0x22)
    (heq : consumed ++ tail = content ++ 0x22 :: 0x3B :: 0x0A :: rest) :
    consumed.length ≤ content.length := by
  induction h generalizing content with
  | nil => exact Nat.zero_le _
  | @cons u token consumed emitted read hemit hread ih =>
      rw [List.append_assoc, List.cons_append] at heq
      rcases content with - | ⟨c, content⟩
      · rw [(List.cons.inj heq).1] at hemit
        cases hemit
      obtain ⟨-, hsplit⟩ := List.cons.inj heq
      rw [List.length_append, List.length_cons, List.length_cons]
      rcases List.append_eq_append_iff.mp hsplit with ⟨more, rfl, hmore⟩ | ⟨extra, rfl, hextra⟩
      · have hle := ih hmore
        rw [List.length_append]
        omega
      rcases extra with - | ⟨q, extra⟩
      · have hle : consumed.length ≤ ([] : JsString).length := ih hextra.symm
        rw [List.append_nil]
        rw [List.length_nil] at hle
        omega
      · -- the token is the escape of the quote
        exfalso
        obtain ⟨rfl, hrest⟩ := List.cons.inj hextra
        rw [List.append_assoc (content ++ 0x22 :: extra)] at hemit
        have hone := length_of_quote hemit (by simp)
        rw [List.length_append, List.length_cons] at hone
        have hextra : extra = [] := List.length_eq_zero_iff.mp (by omega)
        rw [hextra] at hrest
        exact not_reads_semicolon hread htail hrest.symm

/-- A plain text is read up to the quotation mark behind it. -/
theorem scan_literal (h : ∀ u ∈ text, isPlain u = true) (tail : JsString) :
    scan literalStep 0 (text ++ 0x22 :: tail) = some (text, tail) :=
  scan_verbatim (verbatim_literal.mpr h) rfl

/-- A text that is read as itself is plain. -/
theorem plain_of_scan {content later : JsString}
    (h : scan literalStep 0 (content ++ 0x22 :: 0x3B :: 0x0A :: rest) = some (content, later)) :
    ∀ u ∈ content, isPlain u = true := by
  obtain ⟨consumed, close, htext, hclose, hread⟩ := reads_of_scan h
  obtain rfl := literalStep_close hclose
  have hle : consumed.length ≤ content.length := length_le_of_reads hread rfl htext.symm
  have hge : content.length ≤ consumed.length := hread.length_le shrinking_literalStep
  obtain ⟨rfl, -⟩ := List.append_inj htext (Nat.le_antisymm hge hle)
  exact verbatim_literal.mp (hread.verbatim shrinking_literalStep rfl)

/-! ### The declarations of the script -/

/-- Both literals of the script hold what was put into them exactly if that is
plain. -/
theorem declarations_iff (baseUrl fileCache : JsString) (id : RoomId) :
    declarations (chatJS baseUrl fileCache id) =
        some (baseUrl ++ ascii "/api/ws/room/" ++ id.text, ascii "/room/" ++ id.text) ↔
      (∀ u ∈ baseUrl, isPlain u = true) ∧ ∀ u ∈ id.text, isPlain u = true := by
  let first : JsString := baseUrl ++ ascii "/api/ws/room/" ++ id.text
  let second : JsString := ascii "/room/" ++ id.text
  -- the fixed parts are plain, so only the URL and the id matter
  have hpaths : (∀ u ∈ ascii "/api/ws/room/", isPlain u = true) ∧
      ∀ u ∈ ascii "/room/", isPlain u = true :=
    ⟨List.all_iff_forall_prop.mp (by decide), List.all_iff_forall_prop.mp (by decide)⟩
  have hfirst : (∀ u ∈ first, isPlain u = true) ↔
      (∀ u ∈ baseUrl, isPlain u = true) ∧ ∀ u ∈ id.text, isPlain u = true := by
    simp only [first, List.forall_mem_append]
    exact ⟨fun h => ⟨h.1.1, h.2⟩, fun h => ⟨⟨h.1, hpaths.1⟩, h.2⟩⟩
  -- the script, cut at the ends of its two literals
  have hscript : chatJS baseUrl fileCache id = ascii "let urlWebsocket = \"" ++
      (first ++ 0x22 :: 0x3B :: 0x0A :: (ascii "let urlRoom = \"" ++
        (second ++ 0x22 :: (ascii ";\n\n" ++ fileCache)))) := by
    have hend : ascii "\";\n" = [0x22, 0x3B, 0x0A] ∧ ascii "\n" = [0x0A] ∧
        ascii ";\n\n" = [0x3B, 0x0A, 0x0A] := by decide
    have hroom : ascii "let urlRoom = \"/room/" = ascii "let urlRoom = \"" ++ ascii "/room/" := by
      decide
    obtain ⟨hline, hfeed, hlines⟩ := hend
    rw [chatJS, hline, hfeed, hlines, hroom]
    simp [first, second]
  have hread : ((ascii "let urlWebsocket = \"").isPrefixOf? (chatJS baseUrl fileCache id)) =
      some (first ++ 0x22 :: 0x3B :: 0x0A :: (ascii "let urlRoom = \"" ++
        (second ++ 0x22 :: (ascii ";\n\n" ++ fileCache)))) :=
    List.isPrefixOf?_eq_some_iff_append_eq.mpr hscript.symm
  rw [← hfirst, declarations, hread, Option.bind_some]
  constructor
  · intro h
    -- a literal that is read back unchanged is plain
    obtain ⟨⟨urlWebsocket, later⟩, hscan, h⟩ := Option.bind_eq_some_iff.mp h
    obtain ⟨text, -, h⟩ := Option.bind_eq_some_iff.mp h
    obtain ⟨urlRoom, -, heq⟩ := Option.map_eq_some_iff.mp h
    obtain rfl : urlWebsocket = first := (Prod.mk.inj heq).1
    exact plain_of_scan hscan
  · intro h
    have hsecond : ∀ u ∈ second, isPlain u = true := by
      simp only [second, List.forall_mem_append]
      exact ⟨hpaths.2, (hfirst.mp h).2⟩
    have hnext : (ascii ";\nlet urlRoom = \"").isPrefixOf? (0x3B :: 0x0A ::
        (ascii "let urlRoom = \"" ++ (second ++ 0x22 :: (ascii ";\n\n" ++ fileCache)))) =
          some (second ++ 0x22 :: (ascii ";\n\n" ++ fileCache)) := by
      have hstart : ascii ";\nlet urlRoom = \"" = 0x3B :: 0x0A :: ascii "let urlRoom = \"" := by
        decide
      rw [List.isPrefixOf?_eq_some_iff_append_eq, hstart]
      rfl
    rw [scan_literal h, Option.bind_some, hnext, Option.bind_some, scan_literal hsecond]
    rfl

/-! ### The room of a page -/

/-- The router's variable is the part of the path that the id was put in. -/
theorem pathVariable_eq {before after : JsString} (id : RoomId)
    (hafter : ∀ u ∈ after.head?, u = 0x2F) :
    pathVariable before after (before ++ id.text ++ after) = some id := by
  have hstart : before.isPrefixOf? (before ++ id.text ++ after) = some (id.text ++ after) := by
    rw [List.isPrefixOf?_eq_some_iff_append_eq, List.append_assoc]
  have hvalue : (id.text ++ after).takeWhile (fun u => u != 0x2F && u != 0x3F) = id.text := by
    rw [List.takeWhile_append_of_pos fun u hu => by simpa using id.bare u hu]
    rcases after with - | ⟨u, after⟩
    · simp
    · rw [hafter u rfl]
      simp
  rw [pathVariable, hstart, Option.bind_some]
  dsimp only
  split
  · exact congrArg some (RoomId.ext hvalue)
  · next h =>
    rw [hvalue, List.drop_left] at h
    exact absurd ⟨id.nonempty, rfl⟩ h

/-- The page of an id leads to its own room. -/
structure OwnRoom (refs : References) (t : Template) (baseUrl fileCache : JsString)
    (id : RoomId) : Prop where
  script : scriptSrc refs t (chatHTML t id) =
    some (ascii "/room/" ++ id.text ++ ascii "/chat.js")
  literals : declarations (chatJS baseUrl fileCache id) =
    some (baseUrl ++ ascii "/api/ws/room/" ++ id.text, ascii "/room/" ++ id.text)
  joined : joined refs t baseUrl fileCache id = some id

/-- The format, HTML and JavaScript leave the id as it is. -/
structure Untouched (refs : References) (baseUrl : JsString) (id : RoomId) : Prop where
  baseUrl : ∀ u ∈ baseUrl, isPlain u = true
  plain : ∀ u ∈ id.text, isPlain u = true
  nonzero : 0 ∉ id.text
  unformatted : Unformatted id.text
  /-- no ampersand begins a character reference -/
  unreferenced : ∀ before after, id.text = before ++ 0x26 :: after →
    refs.decode (after ++ pageEnd) = none

/-- A page with the right addresses joins the room of its id. -/
theorem joined_eq {baseUrl fileCache : JsString}
    (hscript : scriptSrc refs t (chatHTML t id) =
      some (ascii "/room/" ++ id.text ++ ascii "/chat.js"))
    (hliterals : declarations (chatJS baseUrl fileCache id) =
      some (baseUrl ++ ascii "/api/ws/room/" ++ id.text, ascii "/room/" ++ id.text)) :
    joined refs t baseUrl fileCache id = some id := by
  have hloaded : pathVariable (ascii "/room/") (ascii "/chat.js")
      (ascii "/room/" ++ id.text ++ ascii "/chat.js") = some id :=
    pathVariable_eq id fun _ hu => (Option.some.inj hu).symm
  have hbase : baseUrl.isPrefixOf? (baseUrl ++ ascii "/api/ws/room/" ++ id.text) =
      some (ascii "/api/ws/room/" ++ id.text ++ []) := by
    rw [List.isPrefixOf?_eq_some_iff_append_eq]
    simp
  have hroom : pathVariable (ascii "/api/ws/room/") [] (ascii "/api/ws/room/" ++ id.text ++ []) =
      some id :=
    pathVariable_eq id (by simp)
  rw [joined, hscript, Option.bind_some, hloaded, Option.bind_some, hliterals, Option.bind_some,
    hbase, Option.bind_some, hroom]

/-- **A page leads to its own room exactly when its id is left as it is**, and
the pages of two such ids to different rooms. -/
theorem ownRoom_iff_untouched (refs : References) (t : Template) (baseUrl fileCache : JsString) :
    (∀ id, OwnRoom refs t baseUrl fileCache id ↔ Untouched refs baseUrl id) ∧
      ∀ id id', Untouched refs baseUrl id → Untouched refs baseUrl id' → id ≠ id' →
        joined refs t baseUrl fileCache id ≠ joined refs t baseUrl fileCache id' := by
  have hiff : ∀ id, OwnRoom refs t baseUrl fileCache id ↔ Untouched refs baseUrl id := by
    intro id
    constructor
    · rintro ⟨hscript, hliterals, -⟩
      obtain ⟨hbase, hplain⟩ := (declarations_iff baseUrl fileCache id).mp hliterals
      have hquote : 0x22 ∉ id.text := fun hmem => Bool.false_ne_true (hplain _ hmem)
      have hreturn : 0x0D ∉ id.text := fun hmem => Bool.false_ne_true (hplain _ hmem)
      obtain ⟨hunformatted, hzero, hdecode⟩ := (scriptSrc_iff hquote hreturn).mp hscript
      exact ⟨hbase, hplain, hzero, hunformatted, hdecode⟩
    · intro h
      have hquote : 0x22 ∉ id.text := fun hmem => Bool.false_ne_true (h.plain _ hmem)
      have hreturn : 0x0D ∉ id.text := fun hmem => Bool.false_ne_true (h.plain _ hmem)
      have hscript : scriptSrc refs t (chatHTML t id) =
          some (ascii "/room/" ++ id.text ++ ascii "/chat.js") :=
        (scriptSrc_iff hquote hreturn).mpr ⟨h.unformatted, h.nonzero, h.unreferenced⟩
      have hliterals := (declarations_iff baseUrl fileCache id).mpr ⟨h.baseUrl, h.plain⟩
      exact ⟨hscript, hliterals, joined_eq hscript hliterals⟩
  refine ⟨hiff, fun id id' h h' hne heq => ?_⟩
  rw [((hiff id).mpr h).joined, ((hiff id').mpr h').joined] at heq
  exact hne (Option.some.inj heq)

/-! ### Two pages -/

/-- Enough of a browser for `&amp;`. -/
def ampersands : References where
  decode text := if (ascii "amp;").isPrefixOf text then some ([0x26], 4) else none
  length_le h := by
    obtain ⟨-, heq⟩ := Option.ite_none_right_eq_some.mp h
    cases heq
    decide
  signs_le h := by
    obtain ⟨-, heq⟩ := Option.ite_none_right_eq_some.mp h
    cases heq
    decide
  unquoted {text _ _} h := by
    obtain ⟨hstart, heq⟩ := Option.ite_none_right_eq_some.mp h
    cases heq
    obtain ⟨tail, rfl⟩ := List.isPrefixOf_iff_prefix.mp hstart
    have hname : ascii "amp;" = [0x61, 0x6D, 0x70, 0x3B] := by decide
    rw [hname]
    simp

/-- The page without what is in its middle. -/
def shortTemplate : Template where
  middle := ascii "en\">\n"
  unmarked := by decide

/-- An id without special characters. -/
def lounge : RoomId where
  text := ascii "a$b"
  nonempty := by decide
  bare := List.all_iff_forall_prop.mp (by decide)

/-- An id with a format in it. -/
def dollars : RoomId where
  text := ascii "a$$b"
  nonempty := by decide
  bare := List.all_iff_forall_prop.mp (by decide)

/-- Another id without special characters. -/
def attic : RoomId where
  text := ascii "attic & co"
  nonempty := by decide
  bare := List.all_iff_forall_prop.mp (by decide)

theorem untouched_lounge : Untouched ampersands (ascii "wss://localhost:8443") lounge where
  baseUrl := List.all_iff_forall_prop.mp (by decide)
  plain := List.all_iff_forall_prop.mp (by decide)
  nonzero := by decide
  unformatted := by
    unfold Unformatted
    decide
  unreferenced before after heq := by
    have hnone : 0x26 ∉ lounge.text := by decide
    rw [heq] at hnone
    exact absurd (List.mem_append_right _ List.mem_cons_self) hnone

/-- An ampersand before a blank stands for itself. -/
theorem untouched_attic : Untouched ampersands (ascii "wss://localhost:8443") attic where
  baseUrl := List.all_iff_forall_prop.mp (by decide)
  plain := List.all_iff_forall_prop.mp (by decide)
  nonzero := by decide
  unformatted := by
    unfold Unformatted
    decide
  unreferenced before after heq := by
    have hall : ∀ n < attic.text.length, attic.text[n]? = some 0x26 →
        ampersands.decode (attic.text.drop (n + 1) ++ pageEnd) = none := by
      decide
    have hget : attic.text[before.length]? = some 0x26 := by
      rw [heq]
      simp
    have hdrop : attic.text.drop (before.length + 1) = after := by
      rw [heq]
      simp
    rw [← hdrop]
    exact hall before.length (List.getElem?_eq_some_iff.mp hget).1 hget

theorem ownRoom_lounge :
    OwnRoom ampersands shortTemplate (ascii "wss://localhost:8443") [] lounge ∧
      OwnRoom ampersands shortTemplate (ascii "wss://localhost:8443") [] attic ∧
      joined ampersands shortTemplate (ascii "wss://localhost:8443") [] lounge ≠
        joined ampersands shortTemplate (ascii "wss://localhost:8443") [] attic := by
  obtain ⟨hiff, hrooms⟩ :=
    ownRoom_iff_untouched ampersands shortTemplate (ascii "wss://localhost:8443") []
  exact ⟨(hiff lounge).mpr untouched_lounge, (hiff attic).mpr untouched_attic,
    hrooms lounge attic untouched_lounge untouched_attic (by decide)⟩

/-- Two pages, one room: the format makes one dollar sign of two. -/
theorem two_pages_one_room :
    joined ampersands shortTemplate (ascii "wss://localhost:8443") [] lounge = some lounge ∧
      joined ampersands shortTemplate (ascii "wss://localhost:8443") [] dollars = some lounge ∧
      ¬ OwnRoom ampersands shortTemplate (ascii "wss://localhost:8443") [] dollars := by
  have hdollars : joined ampersands shortTemplate (ascii "wss://localhost:8443") [] dollars =
      some lounge := by
    decide +kernel
  refine ⟨by decide +kernel, hdollars, fun h => ?_⟩
  have heq := hdollars.symm.trans h.joined
  exact absurd heq (by decide)

end RoomPage

end CanChat
