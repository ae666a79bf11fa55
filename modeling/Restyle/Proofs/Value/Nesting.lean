import Restyle.Proofs.Value.OnePass

/-!
# References in references

A reference that is put right behind the opening of another one nests in it. A pass that puts
references makes no other two openings next to one another (`Value.exists_of_infix_passAt`), and it
comes by every opening that it keeps (`Value.infix_passAt_of_nests`). So it can be read off a value
whether replacing a token nests references in it: `Value.replaceToken_nests_iff`.
-/

namespace Restyle.Value

open Byte List Token

open Token (standsIn findOne findAt passAt passAt_done leftOpen)

/-! ## Openings next to one another -/

theorem openings_eq : utf8 "var(var(" = utf8 "var(" ++ utf8 "var(" :=
  rfl

theorem not_blank_of_mem_opening :
    ∀ byte ∈ utf8 "var(", byte ≠ space ∧ byte ≠ newline := by
  simp [opening_eq, space, newline]

/-- Two openings of references next to one another across a seam are one opening on either side. -/
theorem infix_append_cases {left right : Text} (hright : utf8 "var(" <+: right)
    (h : utf8 "var(var(" <:+: left ++ right) :
    utf8 "var(var(" <:+: left ∨ utf8 "var(var(" <:+: right ∨ utf8 "var(" <:+ left := by
  rcases infix_append_iff.mp h with hleft | hright' | ⟨front, back, hsplit, hfront, hback⟩
  · exact .inl hleft
  · exact .inr (.inl hright')
  · have hdrop : back = (utf8 "var(var(").drop front.length := by rw [hsplit, drop_left]
    have htake : front = (utf8 "var(var(").take front.length := by rw [hsplit, take_left]
    by_cases hnil : back = []
    · rw [hnil, append_nil] at hsplit
      exact .inl (hsplit ▸ hfront.isInfix)
    · -- What crosses the seam begins as a reference does.
      have hhead : back.head? = some 0x76 := by
        rw [← head?_of_begins hnil hback, head?_of_begins opening_ne_nil hright]
        rfl
      have hplaces : ∀ place : Fin 9, ((utf8 "var(var(").drop place).head? = some 0x76 →
          place.val = 0 ∨ place.val = 4 := by decide
      have hlength : front.length < 9 := by
        have := congrArg length hsplit
        rw [openings_eq, length_append, length_append, length_opening] at this
        omega
      rcases hplaces ⟨front.length, hlength⟩ (hdrop ▸ hhead) with hzero | hfour
      · have hempty : front = [] := length_eq_zero_iff.mp hzero
        rw [hempty, nil_append] at hsplit
        exact .inr (.inl (hsplit ▸ hback.isInfix))
      · have hopening : front = utf8 "var(" := by
          rw [htake]
          show (utf8 "var(var(").take front.length = _
          rw [show front.length = 4 from hfour]
          rfl
        exact .inr (.inr (hopening ▸ hfront))

/-- No reference goes on from a closed one. -/
theorem infix_append_closed {left right : Text} (hleft : left.getLast? = some closeParen)
    (h : utf8 "var(var(" <:+: left ++ right) :
    utf8 "var(var(" <:+: left ∨ utf8 "var(var(" <:+: right := by
  rcases infix_append_iff.mp h with hinside | hinside | ⟨front, back, hsplit, hfront, hback⟩
  · exact .inl hinside
  · exact .inr hinside
  · by_cases hnil : front = []
    · rw [hnil, nil_append] at hsplit
      exact .inr (hsplit ▸ hback.isInfix)
    · obtain ⟨other, rfl⟩ := hfront
      rw [getLast?_append, getLast?_eq_some_getLast hnil, Option.some_or,
        Option.some.injEq] at hleft
      have hmem : closeParen ∈ utf8 "var(var(" := by
        rw [hsplit, ← hleft]
        exact mem_append_left _ (getLast_mem hnil)
      exact absurd hmem (by decide)

/-! ## Passes that put references -/

section Passes

variable {find : Option UInt8 → Text → Option (Nat × Text)} {pairs : List (UInt8 × UInt8)}
  {text mask : Text}

/-- A reference is put for some bytes of a mask: there are such bytes, a token may begin with them,
and they do not reach over the opening of a reference. -/
structure Placed (mask : Text) (offset width : Nat) (new : Text) : Prop where
  pos : 0 < width
  inside : offset < mask.length
  reference : isReference new
  left : leftOpen (mask.take offset).getLast?
  clear : ∀ place, utf8 "var(" <+: mask.drop place → offset < place → offset + width ≤ place

/-- All that a pass puts are references. -/
def Refers (find : Option UInt8 → Text → Option (Nat × Text)) (mask : Text) : Prop :=
  ∀ ⦃offset width new⦄, findAt find mask offset = some (width, new) → Placed mask offset width new

/-- The pass puts something right behind an opening that it keeps. -/
def Nests (find : Option UInt8 → Text → Option (Nat × Text)) (text mask : Text) (place : Nat) :
    Prop :=
  utf8 "var(" <+: text.drop place ∧ findAt find mask place = none ∧
    (findAt find mask (place + 4)).isSome

variable (hfst : pairs.map Prod.fst = text) (hsnd : pairs.map Prod.snd = mask)
  (h : Refers find mask)
include h

variable {place : Nat}

/-- No token may begin inside the opening of a reference. -/
theorem findAt_of_opening {index : Nat} (hopening : utf8 "var(" <+: mask.drop place)
    (hindex : 0 < index) (hlt : index < 4) : findAt find mask (place + index) = none := by
  cases hfind : findAt find mask (place + index) with
  | none => rfl
  | some found =>
    have hleft := (h hfind).left
    obtain ⟨later, hlater⟩ := hopening
    have hbytes : ∀ index : Fin 4, 0 < index.val →
        leftOpen ((utf8 "var(").take index).getLast? = false := by decide
    have hne : (utf8 "var(").take index ≠ [] := by
      intro hnil
      have := congrArg length hnil
      rw [length_take, length_opening, length_nil] at this
      omega
    rw [take_add, ← hlater, take_append_of_le_length (Nat.le_of_lt hlt),
      getLast?_append, getLast?_eq_some_getLast hne, Option.some_or,
      ← getLast?_eq_some_getLast hne, hbytes ⟨index, hlt⟩ hindex] at hleft
    cases hleft

include hsnd

/-- A pass comes by every opening. -/
theorem suffix_passAt_of_opening (hplace : place ≤ mask.length)
    (hopening : utf8 "var(" <+: mask.drop place) :
    passAt find Prod.fst pairs place <:+ passAt find Prod.fst pairs 0 := by
  subst hsnd
  rw [length_map] at hplace
  exact suffix_passAt hplace (fun _ _ _ hfind => (h hfind).pos)
    (fun _ _ _ hfind hlt => (h hfind).clear place hopening hlt) 0 (Nat.zero_le _)

include hfst

/-- Two openings next to one another in what a pass makes are made by it: they are in a text that it
puts, or it puts one behind an opening that it keeps. -/
theorem exists_of_infix_passAt (htext : ¬ utf8 "var(var(" <:+: text) (offset : Nat) :
    ∀ start ≤ offset, (∀ place, start ≤ place → place < offset → findAt find mask place = none) →
      utf8 "var(var(" <:+: (text.drop start).take (offset - start) ++
        passAt find Prod.fst pairs offset →
      (∃ place width new, findAt find mask place = some (width, new) ∧
        utf8 "var(var(" <:+: new) ∨ ∃ place, Nests find text mask place := by
  subst hfst hsnd
  have hmask : (pairs.map Prod.snd).length = pairs.length := length_map _
  have hinside : ∀ start count,
      ¬ utf8 "var(var(" <:+: ((pairs.map Prod.fst).drop start).take count := by
    intro start count hholds
    exact htext (hholds.trans ((List.take_prefix _ _).isInfix.trans (drop_suffix _ _).isInfix))
  induction offset using pass_induction fun _ _ _ hfind => (h hfind).pos with
  | done offset hdone =>
    intro start _ _ hholds
    rw [passAt_done (hmask ▸ hdone), append_nil] at hholds
    exact absurd hholds (hinside _ _)
  | found offset width new hoffset hfind ih =>
    intro start hstart hmissed hholds
    have hreference := (h hfind).reference
    rw [passAt_found (hmask ▸ hoffset) (h hfind).pos hfind] at hholds
    rcases infix_append_cases ((opening_prefix_of_isReference hreference).trans
      (prefix_append _ _)) hholds with hkept | hnew | hopening
    · exact absurd hkept (hinside _ _)
    · rcases infix_append_closed (getLast?_of_isReference hreference) hnew with hnew | hlater
      · exact .inl ⟨offset, width, new, hfind, hnew⟩
      · refine ih (offset + width) (Nat.le_refl _) (fun place hle hlt => ?_) ?_
        · omega
        · rwa [Nat.sub_self, take_zero, nil_append]
    · obtain ⟨front, hfront⟩ := hopening
      have hlength := congrArg length hfront
      rw [length_append, length_take, length_drop, length_map, length_opening] at hlength
      rw [hmask] at hoffset
      have hplace : start + front.length + 4 = offset := by omega
      refine .inr ⟨start + front.length, ?_, hmissed _ (Nat.le_add_right _ _) (by omega), ?_⟩
      · rw [← drop_drop, ← take_append_drop (offset - start)
          ((pairs.map Prod.fst).drop start), ← hfront, append_assoc, drop_left]
        exact prefix_append _ _
      · rw [hplace, hfind]
        rfl
  | kept offset hoffset hfind ih =>
    intro start hstart hmissed hholds
    refine ih start (Nat.le_succ_of_le hstart) (fun place hle hlt => ?_) ?_
    · by_cases hlast : place = offset
      · rw [hlast]
        exact hfind
      · exact hmissed place hle (by omega)
    · rw [passAt_kept hfind, ← append_assoc] at hholds
      have hmore : ((pairs.map Prod.fst).drop start).take (offset + 1 - start) =
          ((pairs.map Prod.fst).drop start).take (offset - start) ++
            ((pairs.drop offset).take 1).map Prod.fst := by
        rw [show offset + 1 - start = offset - start + 1 by omega, take_add, drop_drop,
          show start + (offset - start) = offset by omega, map_take, map_drop]
      rwa [hmore]

/-- A pass that finds nothing at an opening keeps the opening. -/
theorem passAt_of_opening (hopening : utf8 "var(" <+: mask.drop place)
    (htext : utf8 "var(" <+: text.drop place) (hmissed : findAt find mask place = none) :
    passAt find Prod.fst pairs place =
      utf8 "var(" ++ passAt find Prod.fst pairs (place + 4) := by
  subst hfst hsnd
  have hclear : ∀ other, place ≤ other → other < place + 4 →
      findAt find (pairs.map Prod.snd) other = none := by
    intro other hle hlt
    by_cases heq : other = place
    · rwa [heq]
    · rw [show other = place + (other - place) by omega]
      exact findAt_of_opening h hopening (by omega) (by omega)
  have hkept : ((pairs.drop place).take 4).map Prod.fst = utf8 "var(" := by
    rw [map_take, map_drop, ← length_opening]
    exact (prefix_iff_eq_take.mp htext).symm
  rw [passAt_missed hclear, hkept]

/-- What a pass puts behind an opening that it keeps makes two openings next to one another. -/
theorem infix_passAt_of_nests (hopening : utf8 "var(" <+: mask.drop place)
    (hnests : Nests find text mask place) : utf8 "var(var(" <:+: passAt find Prod.fst pairs 0 := by
  obtain ⟨htext, hmissed, hfound⟩ := hnests
  obtain ⟨⟨width, new⟩, hfind⟩ := Option.isSome_iff_exists.mp hfound
  have hplace := (h hfind).inside
  have hnested : utf8 "var(var(" <+: passAt find Prod.fst pairs place := by
    rw [passAt_of_opening hfst hsnd h hopening htext hmissed,
      passAt_found (by rwa [← hsnd, length_map] at hplace) (h hfind).pos (hsnd ▸ hfind),
      openings_eq, prefix_append_right_inj]
    exact (opening_prefix_of_isReference (h hfind).reference).trans (prefix_append _ _)
  exact hnested.isInfix.trans (suffix_passAt_of_opening hsnd h (by omega) hopening).isInfix

/-- A text that ends with a parenthesis does so behind a pass that puts references. -/
theorem getLast?_passAt (htext : text.getLast? = some closeParen) (offset : Nat)
    (hoffset : offset < mask.length) :
    (passAt find Prod.fst pairs offset).getLast? = some closeParen := by
  subst hfst hsnd
  have hmask : (pairs.map Prod.snd).length = pairs.length := length_map _
  -- What is behind a piece decides, unless the piece is the last one.
  have hpiece : ∀ piece next, piece.getLast? = some closeParen ∨ next < pairs.length →
      (next < pairs.length → (passAt find Prod.fst pairs next).getLast? = some closeParen) →
      (piece ++ passAt find Prod.fst pairs next).getLast? = some closeParen := by
    intro piece next hpiece hnext
    rw [getLast?_append]
    by_cases hlt : next < pairs.length
    · rw [hnext hlt, Option.some_or]
    · rw [passAt_done (Nat.le_of_not_lt hlt), getLast?_nil, Option.none_or]
      exact hpiece.resolve_right hlt
  rw [hmask] at hoffset
  induction offset using pass_induction fun _ _ _ hfind => (h hfind).pos with
  | done offset hdone => omega
  | found offset width new _ hfind ih =>
    rw [passAt_found hoffset (h hfind).pos hfind]
    exact hpiece _ _ (.inl (getLast?_of_isReference (h hfind).reference)) ih
  | kept offset _ hfind ih =>
    rw [passAt_kept hfind]
    refine hpiece _ _ ?_ ih
    by_cases hlast : offset + 1 < pairs.length
    · exact .inr hlast
    · refine .inl ?_
      rw [take_of_length_le (by rw [length_drop]; omega), map_drop,
        getLast?_drop, if_neg (by rw [length_map]; omega), htext]

end Passes

/-! ## Replacing a token -/

section Token

variable {dialect : Dialect} {token replacement : Text}

section Opening

variable (hopening : ¬ utf8 "var(" <:+: token ++ utf8 "(")
include hopening

variable {mask : Text} {offset : Nat} {new : Text}

/-- A reference that stands at an offset ends before the next opening. -/
theorem add_length_le_of_referTo {place : Nat}
    (hstands : standsIn (referTo token) mask offset) (hlt : offset < place)
    (hplace : utf8 "var(" <+: mask.drop place) : offset + (referTo token).length ≤ place := by
  obtain ⟨later, hlater⟩ := prefix_of_standsIn hstands
  obtain ⟨index, rfl⟩ : ∃ index, place = offset + index := ⟨place - offset, by omega⟩
  rw [← drop_drop, ← hlater, referTo, append_assoc, append_assoc] at hplace
  have hhead := head?_of_begins opening_ne_nil hplace
  rw [show (utf8 "var(").head? = some 0x76 from rfl] at hhead
  refine Nat.add_le_add_left (Nat.le_of_not_lt fun hinside => ?_) offset
  by_cases hsmall : index < 4
  · -- No opening begins inside another.
    have hbytes : ∀ index : Fin 4, 0 < index.val → (utf8 "var(")[index.val]? ≠ some 0x76 := by
      decide
    rw [head?_drop, getElem?_append_left (length_opening.symm ▸ hsmall)] at hhead
    exact hbytes ⟨index, hsmall⟩ (show 0 < index by omega) hhead
  · obtain ⟨rest, rfl⟩ : ∃ rest, index = 4 + rest := ⟨index - 4, by omega⟩
    rw [← length_opening, ← drop_drop, drop_left] at hplace hhead
    by_cases hrest : rest < token.length
    · have hne : token.drop rest ≠ [] := by
        rw [ne_eq, drop_eq_nil_iff]
        omega
      rw [drop_append_of_le_length (Nat.le_of_lt hrest)] at hplace
      have hright := rightOpen_of_opening hopening (drop_suffix _ _) hne hplace
      rw [closing_eq] at hright
      exact absurd (show rightOpen (some closeParen) = false from hright) (by decide)
    · have hlength : (referTo token).length = 4 + token.length + 1 := by
        rw [referTo, length_append, length_append, length_opening, closing_eq]
        rfl
      obtain rfl : rest = token.length := by omega
      rw [drop_left, closing_eq] at hhead
      exact absurd (show some closeParen = some 0x76 from hhead) (by decide)

/-- A token that stands by itself is found where a reference may be put. -/
theorem placed_bare (hne : token ≠ []) (hstands : standsIn token mask offset)
    (hnew : isReference new) :
    Placed mask offset token.length new where
  pos := length_pos_iff.mpr hne
  inside := lt_length_of_standsIn hne hstands
  reference := hnew
  left := leftOpen_of_standsIn hstands
  clear := fun _ hplace hlt => add_length_le_of_standsIn hopening hstands (Nat.le_of_lt hlt) hplace

/-- So is a reference to the token. -/
theorem placed_whole (hstands : standsIn (referTo token) mask offset)
    (hnew : isReference new) :
    Placed mask offset (referTo token).length new where
  pos := length_pos_iff.mpr (referTo_ne_nil token)
  inside := lt_length_of_standsIn (referTo_ne_nil token) hstands
  reference := hnew
  left := leftOpen_of_standsIn hstands
  clear := fun _ hplace hlt => add_length_le_of_referTo hopening hstands hlt hplace

/-- The second pass puts references. -/
theorem refers_findOne (hnew : isReference new) (mask : Text) :
    Refers (findOne token new) mask := by
  intro offset width text hfind
  obtain ⟨⟨hne, hstands⟩, hfound⟩ := findOne_eq_some_iff.mp hfind
  obtain ⟨rfl, rfl⟩ := Prod.mk.inj hfound
  exact placed_bare hopening hne hstands hnew

/-- Both passes in one put references. -/
theorem refers_findEach {whole bare : Text} (hwhole : isReference whole)
    (hbare : isReference bare) (mask : Text) : Refers (findEach token whole bare) mask := by
  intro offset width text hfind
  rcases findAt_eq_some_iff.mp hfind with ⟨hstands, hfound⟩ | ⟨-, ⟨hne, hstands⟩, hfound⟩
  · obtain ⟨rfl, rfl⟩ := Prod.mk.inj hfound
    exact placed_whole hopening hstands hwhole
  · obtain ⟨rfl, rfl⟩ := Prod.mk.inj hfound
    exact placed_bare hopening hne hstands hbare

/-- No token stands at the opening of a reference. -/
theorem standsIn_of_opening {place : Nat} (hplace : utf8 "var(" <+: mask.drop place)
    (hne : token ≠ []) : standsIn token mask place = false := by
  refine Bool.eq_false_iff.mpr fun hstands => ?_
  have := add_length_le_of_standsIn hopening hstands (Nat.le_refl _) hplace
  have := length_pos_iff.mpr hne
  omega

end Opening

/-- The token stands right behind the opening of a reference. -/
def OpensAt (token text : Text) (place : Nat) : Prop :=
  utf8 "var(" <+: text.drop place ∧ standsIn token text (place + 4)

/-- Replacing the token in the replacement is a pass over it. -/
theorem replace_eq_passAt (replacement token : Text) :
    Token.replace replacement token replacement =
      passAt (findOne token replacement) Prod.fst (replacement.zip replacement) 0 := by
  rw [replace_eq_passFrom replacement token replacement (show leftOpen none from rfl)]
  rfl

theorem map_zip_self (text : Text) :
    (text.zip text).map Prod.fst = text ∧ (text.zip text).map Prod.snd = text :=
  ⟨map_fst_zip (Nat.le_refl _), map_snd_zip (Nat.le_refl _)⟩

theorem isReference_replace (h : OnePass dialect token replacement) :
    isReference (Token.replace replacement token replacement) := by
  obtain ⟨hfst, hsnd⟩ := map_zip_self replacement
  have hrefers := refers_findOne h.opening h.reference replacement
  have hopening : utf8 "var(" <+: replacement.drop 0 := opening_prefix_of_isReference h.reference
  have hmissed : findAt (findOne token replacement) replacement 0 = none :=
    findOne_eq_none_iff.mpr fun ⟨hne, hstands⟩ =>
      Bool.eq_false_iff.mp (standsIn_of_opening h.opening hopening hne) hstands
  have hlast := getLast?_passAt hfst hsnd hrefers (getLast?_of_isReference h.reference) 0
    h.length_pos
  rw [replace_eq_passAt]
  simp only [isReference, Text.startsWith, Text.endsWith, Bool.and_eq_true,
    isPrefixOf_iff_prefix, isSuffixOf_iff_suffix]
  constructor
  · rw [passAt_of_opening hfst hsnd hrefers hopening hopening hmissed]
    exact prefix_append _ _
  · rw [closing_eq]
    exact getLast?_eq_some_iff.mp hlast |>.imp fun _ => Eq.symm

/-- The replacement nests in itself where it mentions the token right behind an opening. -/
theorem infix_replace_iff (h : OnePass dialect token replacement) (hne : token ≠ [])
    (hreplacement : ¬ utf8 "var(var(" <:+: replacement) :
    utf8 "var(var(" <:+: Token.replace replacement token replacement ↔
      ∃ place, OpensAt token replacement place := by
  obtain ⟨hfst, hsnd⟩ := map_zip_self replacement
  have hrefers := refers_findOne h.opening h.reference replacement
  rw [replace_eq_passAt]
  constructor
  · intro hholds
    rcases exists_of_infix_passAt hfst hsnd hrefers hreplacement 0 0 (Nat.le_refl _)
      (fun _ _ hlt => absurd hlt (Nat.not_lt_zero _)) hholds with
        ⟨place, width, new, hfind, hnew⟩ | ⟨place, hopening, -, hfound⟩
    · obtain ⟨-, hfound⟩ := findOne_eq_some_iff.mp hfind
      obtain ⟨-, rfl⟩ := Prod.mk.inj hfound
      exact absurd hnew hreplacement
    · obtain ⟨found, hfind⟩ := Option.isSome_iff_exists.mp hfound
      obtain ⟨⟨-, hstands⟩, -⟩ := findOne_eq_some_iff.mp hfind
      exact ⟨place, hopening, hstands⟩
  · rintro ⟨place, hopening, hstands⟩
    refine infix_passAt_of_nests hfst hsnd hrefers hopening ⟨hopening, ?_, ?_⟩
    · exact findOne_eq_none_iff.mpr fun ⟨_, hplace⟩ =>
        Bool.eq_false_iff.mp (standsIn_of_opening h.opening hopening hne) hplace
    · exact Option.isSome_iff_exists.mpr ⟨_, findOne_eq_some_iff.mpr ⟨⟨hne, hstands⟩, rfl⟩⟩

variable {value : Text} {place : Nat}

/-- What is shown of a value without blanks is there. -/
theorem isPrefix_of_code {word : Text}
    (hblank : ∀ byte ∈ word, byte ≠ space ∧ byte ≠ newline)
    (h : word <+: (dialect.stripComments value).drop place) : word <+: value.drop place := by
  rw [Dialect.stripComments, Scan.drop_stripFrom] at h
  obtain ⟨later, hlater, -⟩ := Dialect.unmarked_of_isPrefix hblank h
  exact ⟨later, hlater.symm⟩

/-- The opening in front of a token that stands in the code of a value is code. -/
theorem opening_of_value (hne : token ≠ [])
    (hblank : ∀ byte ∈ token, byte ≠ space ∧ byte ≠ newline)
    (hopening : utf8 "var(" <+: value.drop place)
    (hstands : standsIn token (dialect.stripComments value) (place + 4)) :
    utf8 "var(" <+: (dialect.stripComments value).drop place := by
  obtain ⟨byte, rest, rfl⟩ := exists_cons_of_ne_nil hne
  obtain ⟨hspace, hnewline⟩ := hblank byte mem_cons_self
  have hbyte : (dialect.stripComments value)[place + 4]? = some byte := by
    rw [← head?_drop]
    exact head?_of_begins (cons_ne_nil _ _) (prefix_of_standsIn hstands)
  have hmark : (dialect.marks value)[place + (utf8 "var(").length]? = some (byte, false) := by
    rw [length_opening]
    exact Scan.marks_of_shown hbyte hspace hnewline
  exact Dialect.isPrefix_stripComments (by decide +kernel) hopening hmark hnewline

/-- No reference stands right behind an opening in a value without two openings in a row. -/
theorem standsIn_referTo_of_opening (hvalue : ¬ utf8 "var(var(" <:+: value)
    (hopening : utf8 "var(" <+: value.drop place) :
    standsIn (referTo token) (dialect.stripComments value) (place + 4) = false := by
  refine Bool.eq_false_iff.mpr fun hwhole => ?_
  have hnext := isPrefix_of_code not_blank_of_mem_opening (opening_of_standsIn hwhole)
  obtain ⟨later, hlater⟩ := hopening
  rw [← drop_drop, ← hlater, ← length_opening, drop_left] at hnext
  have hnested : utf8 "var(var(" <+: value.drop place := by
    rw [← hlater, openings_eq, prefix_append_right_inj]
    exact hnext
  exact hvalue (hnested.isInfix.trans (drop_suffix _ _).isInfix)

/-- Where the token stands, the one pass finds something. -/
theorem isSome_findAt_of_standsIn {whole bare mask : Text} {offset : Nat} (hne : token ≠ [])
    (hbare : standsIn token mask offset) :
    (findAt (findEach token whole bare) mask offset).isSome := by
  refine Option.isSome_iff_ne_none.mpr fun hmissed => ?_
  rw [(findAt_eq_none_iff.mp hmissed).2 hne] at hbare
  cases hbare

/-- Let a token be replaced by a reference such that the two passes are one, and let neither the
value nor the replacement have a reference right in a reference. Then the new value has one exactly
if the token stands in the code of the value right behind an opening but not in a reference to the
token alone, or if the value refers to the token and the replacement mentions the token right behind
an opening. -/
theorem replaceToken_nests_iff (h : OnePass dialect token replacement) (hne : token ≠ [])
    {value : Text} (hvalue : ¬ utf8 "var(var(" <:+: value)
    (hreplacement : ¬ utf8 "var(var(" <:+: replacement) :
    utf8 "var(var(" <:+: replaceToken dialect value token replacement ↔
      (∃ place, OpensAt token (dialect.stripComments value) place ∧
        standsIn (referTo token) (dialect.stripComments value) place = false) ∨
      (Token.count (referTo token) (dialect.stripComments value) ≠ 0 ∧
        ∃ place, OpensAt token replacement place) := by
  have hfst : (value.zip (dialect.stripComments value)).map Prod.fst = value :=
    map_fst_zip (Nat.le_of_eq (dialect.length_stripFrom Scan.start value).symm)
  have hsnd : (value.zip (dialect.stripComments value)).map Prod.snd =
      dialect.stripComments value :=
    map_snd_zip (Nat.le_of_eq (dialect.length_stripFrom Scan.start value))
  have hrefers := refers_findEach h.opening (isReference_replace h) h.reference
    (dialect.stripComments value)
  rw [replaceToken_eq h, count_ne_zero_iff (referTo_ne_nil token),
    ← infix_replace_iff h hne hreplacement]
  constructor
  · intro hholds
    rcases exists_of_infix_passAt hfst hsnd hrefers hvalue 0 0 (Nat.le_refl _)
      (fun _ _ hlt => absurd hlt (Nat.not_lt_zero _)) hholds with
        ⟨place, width, new, hfind, hnew⟩ | ⟨place, hopening, hmissed, hfound⟩
    · rcases findAt_eq_some_iff.mp hfind with ⟨hwhole, hfound⟩ | ⟨-, -, hfound⟩
      · obtain ⟨-, rfl⟩ := Prod.mk.inj hfound
        exact .inr ⟨⟨place, hwhole⟩, hnew⟩
      · obtain ⟨-, rfl⟩ := Prod.mk.inj hfound
        exact absurd hnew hreplacement
    · obtain ⟨found, hfind⟩ := Option.isSome_iff_exists.mp hfound
      rcases findAt_eq_some_iff.mp hfind with ⟨hwhole, -⟩ | ⟨-, ⟨-, hbare⟩, -⟩
      · rw [standsIn_referTo_of_opening hvalue hopening] at hwhole
        cases hwhole
      · exact .inl ⟨place, ⟨opening_of_value hne h.fits.blank hopening hbare, hbare⟩,
          (findAt_eq_none_iff.mp hmissed).1⟩
  · rintro (⟨place, ⟨hopening, hbare⟩, hwhole⟩ | ⟨⟨place, hwhole⟩, hnested⟩)
    · refine infix_passAt_of_nests hfst hsnd hrefers hopening
        ⟨isPrefix_of_code not_blank_of_mem_opening hopening, ?_,
          isSome_findAt_of_standsIn hne hbare⟩
      exact findAt_eq_none_iff.mpr ⟨hwhole, standsIn_of_opening h.opening hopening⟩
    · have hplace := lt_length_of_standsIn (referTo_ne_nil token) hwhole
      have hsuffix := suffix_passAt_of_opening hsnd hrefers (Nat.le_of_lt hplace)
        (opening_of_standsIn hwhole)
      rw [passAt_whole (by rwa [← hsnd, length_map] at hplace) (hsnd.symm ▸ hwhole)] at hsuffix
      exact (hnested.trans (prefix_append _ _).isInfix).trans hsuffix.isInfix

end Token

/-- The token stands behind a name that ends as an opening does. -/
theorem replaceToken_nests_adjacent :
    (OnePass .scss (utf8 "--a") (utf8 "var(--b)") ∧ utf8 "--a" ≠ [] ∧
      ¬ utf8 "var(var(" <:+: utf8 "var(--a) myvar(--a)" ∧
      ¬ utf8 "var(var(" <:+: utf8 "var(--b)") ∧
    OpensAt (utf8 "--a") (utf8 "var(--a) myvar(--a)") 11 ∧
    utf8 "var(var(" <:+:
      replaceToken .scss (utf8 "var(--a) myvar(--a)") (utf8 "--a") (utf8 "var(--b)") := by
  have h : OnePass .scss (utf8 "--a") (utf8 "var(--b)") := by decide
  have hne : utf8 "--a" ≠ [] := by decide
  have hvalue : ¬ utf8 "var(var(" <:+: utf8 "var(--a) myvar(--a)" := by decide
  have hreplacement : ¬ utf8 "var(var(" <:+: utf8 "var(--b)" := by decide
  have hopens : OpensAt (utf8 "--a") (utf8 "var(--a) myvar(--a)") 11 :=
    ⟨by decide, by decide⟩
  have hcode : Dialect.scss.stripComments (utf8 "var(--a) myvar(--a)") =
      utf8 "var(--a) myvar(--a)" := by decide
  refine ⟨⟨h, hne, hvalue, hreplacement⟩, hopens,
    (replaceToken_nests_iff h hne hvalue hreplacement).mpr (.inl ⟨11, ?_, ?_⟩)⟩
  · rw [hcode]
    exact hopens
  · rw [hcode]
    decide

/-- A reference with a fallback and a replacement that mentions the token nest, though neither the
values nor the replacements do. -/
theorem replaceToken_nests :
    (¬ utf8 "var(var(" <:+: utf8 "var(--a, 1px)" ∧ ¬ utf8 "var(var(" <:+: utf8 "var(--b)" ∧
      utf8 "var(var(" <:+:
        replaceToken .css (utf8 "var(--a, 1px)") (utf8 "--a") (utf8 "var(--b)")) ∧
    (¬ utf8 "var(var(" <:+: utf8 "var(--a)" ∧ ¬ utf8 "var(var(" <:+: utf8 "var(--a, #fff)" ∧
      utf8 "var(var(" <:+:
        replaceToken .css (utf8 "var(--a)") (utf8 "--a") (utf8 "var(--a, #fff)")) := by
  decide

end Restyle.Value
