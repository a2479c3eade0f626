import SymbolicAlgebra.Proofs.TermText

/-!
# Texts of trees

The text of a legible tree spells what the tree means, as tightly as its precedence says. The proof
goes through the tree as the printer does.
-/

namespace SymbolicAlgebra

open Outcome Formula

variable {I : Interpretation}

theorem Value.precedence_pos (v : Value) : 0 < v.precedence := by
  unfold precedence
  split_ifs <;> decide

theorem Function.precedence_pos (f : Function) : 0 < f.precedence := by cases f <;> decide

mutual

theorem Tree.precedence_pos : (t : Tree) → {k : Nat} → t.precedence = .ok k → 0 < k
  | .number v, k, h => Except.ok.inj h ▸ v.precedence_pos
  | .constant _, k, h => by
    obtain rfl := Except.ok.inj h
    decide
  | .variable _, k, h => by
    obtain rfl := Except.ok.inj h
    decide
  | .power f, k, h => f.precedence_pos h
  | .term t, k, h => t.precedence_pos h
  | .sum _, k, h => by
    obtain rfl := Except.ok.inj h
    decide
  | .call f _, k, h => Except.ok.inj h ▸ f.precedence_pos

theorem Factor.precedence_pos : (f : Factor) → {k : Nat} → f.precedence = .ok k → 0 < k
  | ⟨base, exponent⟩, k, h => by
    obtain ⟨one, -, h⟩ := bind_eq_ok.mp h
    cases one with
    | true => exact base.precedence_pos h
    | false =>
      obtain rfl := Except.ok.inj h
      decide

theorem Term.precedence_pos : (t : Term) → {k : Nat} → t.precedence = .ok k → 0 < k
  | ⟨multiplier, divisor, top, bottom⟩, k, h => by
    obtain ⟨vs, -, h⟩ := bind_eq_ok.mp h
    obtain ⟨whole, -, h⟩ := bind_eq_ok.mp h
    split_ifs at h
    · obtain rfl := Except.ok.inj h
      decide
    · obtain rfl := Except.ok.inj h
      decide
    · obtain rfl := Except.ok.inj h
      decide
    · exact Except.ok.inj h ▸ multiplier.precedence_pos
    · exact Factor.precedenceOfFirst_pos top h

theorem Factor.precedenceOfFirst_pos : (fs : List Factor) → {k : Nat} →
    Factor.precedenceOfFirst fs = .ok k → 0 < k
  | [], k, h => by
    obtain rfl := Except.ok.inj h
    decide
  | f :: rest, k, h => by
    obtain ⟨one, -, h⟩ := bind_eq_ok.mp h
    cases one with
    | true => exact Factor.precedenceOfFirst_pos rest h
    | false => exact f.precedence_pos h

end

theorem embed_anything_eq_ok {precedence : Except Fault Nat} {text : Except Fault (List Char)}
    {w : List Char} (hpos : ∀ k, precedence = .ok k → 0 < k) :
    embed Precedence.anything precedence text = .ok w ↔
      (∃ k, precedence = .ok k) ∧ text = .ok w := by
  rw [embed_eq_ok]
  constructor
  · rintro ⟨k, v, hk, hv, rfl⟩
    exact ⟨⟨k, hk⟩, by rw [if_pos (show Precedence.anything < k from hpos k hk), hv]⟩
  · rintro ⟨⟨k, hk⟩, hw⟩
    exact ⟨k, w, hk, hw, (if_pos (show Precedence.anything < k from hpos k hk)).symm⟩

/-- A term binds tighter than a product only if it is written as a single number or factor. -/
theorem Term.precedence_eq_ok {c k : Rat} {top bottom vs : List Factor} {whole : Bool} {p : Nat}
    (h : Term.precedence ⟨.exact c, .exact k, top, bottom⟩ = .ok p)
    (hvs : Factor.visible top = .ok vs)
    (hwhole : Term.denominatorIsOne ⟨.exact c, .exact k, top, bottom⟩ = .ok whole) :
    p = Precedence.product ∨
      whole = true ∧ vs = [] ∧ 0 ≤ c ∧ p = (Value.exact c).precedence ∨
      whole = true ∧ c = 1 ∧ vs.length = 1 ∧ Factor.precedenceOfFirst top = .ok p := by
  simp only [Term.precedence, hvs, hwhole, ok_bind] at h
  split_ifs at h with hsign hone hmany hnone
  · exact .inl (Except.ok.inj h).symm
  · exact .inl (Except.ok.inj h).symm
  · exact .inl (Except.ok.inj h).symm
  · refine .inr (.inl ⟨?_, ?_, ?_, (Except.ok.inj h).symm⟩)
    · simp_all
    · simpa using hnone
    · simp_all
  · refine .inr (.inr ⟨?_, ?_, ?_, h⟩)
    · simp_all
    · simp_all
    · have hpos := List.length_pos_iff.mpr (by simpa using hnone)
      omega

theorem Spelled.weaken {start : Prop} {precedence : Except Fault Nat} {w : List Char}
    {m n : Denotation} (h : Spelled start precedence w m)
    (hmn : ∀ I q, n I = some q → m I = some q) : Spelled start precedence w n where
  whole := h.whole.weaken hmn
  power k hk hlt := (h.power k hk hlt).weaken hmn
  unary k hk hlt := (h.unary k hk hlt).weaken hmn
  atom k hk hlt := (h.atom k hk hlt).weaken hmn

theorem Spelled.of_precedence {start : Prop} {p p' : Except Fault Nat} {w : List Char}
    {m : Denotation} (h : Spelled start p w m)
    (hp : ∀ k, p' = .ok k → k ≤ Precedence.product ∨ p = .ok k) : Spelled start p' w m where
  whole := h.whole
  power k hk hlt := h.power k ((hp k hk).resolve_left (not_le.mpr hlt)) hlt
  unary k hk hlt := by
    have hloose : ¬ k ≤ Precedence.product := not_le.mpr (lt_trans (by decide) hlt)
    exact h.unary k ((hp k hk).resolve_left hloose) hlt
  atom k hk hlt := by
    have hloose : ¬ k ≤ Precedence.product := not_le.mpr (lt_trans (by decide) hlt)
    exact h.atom k ((hp k hk).resolve_left hloose) hlt

theorem Value.isWritten_zero : IsWritten 0 := .inl rfl

/-- A zero is an atom. -/
theorem spells_zero : Tier.atom.Spells ['0'] fun _ => some 0 :=
  (Value.spelled Value.isWritten_zero True).atom _ rfl (by decide)

theorem Spelled.mono {start start' : Prop} {precedence : Except Fault Nat} {w : List Char}
    {m : Denotation} (h : Spelled start precedence w m) (hstart : start → start') :
    Spelled start' precedence w m where
  whole := h.whole.mono hstart
  power := h.power
  unary := h.unary
  atom := h.atom

theorem Value.isNegative_of_isOne {v : Value} (h : v.isOne = true) : v.isNegative = false := by
  have hplace : v.place? = some (.finite 1) := by
    unfold isOne eq at h
    split at h
    · next p q hp hq =>
      obtain rfl := Option.some.inj hq
      rw [hp, of_decide_eq_true h]
    · cases h
  rw [isNegative, lt, hplace]
  rfl

namespace Term

variable {c k : Rat} {top bottom vs : List Factor} {pieces : List (List Char)} {whole : Bool}
  {start : Prop} {w : List Char} {signed : Bool}

theorem meaning?_of_isZero {m d : Value} {q : Rat} (hzero : m.isZero = true)
    (h : meaning? I ⟨m, d, top, bottom⟩ = some q) : q = 0 := by
  obtain ⟨m, d, n, b, rfl, -, -, -, -, -, rfl⟩ := meaning?_eq_some.mp h
  obtain rfl : m = 0 := by simpa using hzero
  simp

theorem toChars_of_isZero {m d : Value} (hzero : m.isZero = true)
    (h : toChars signed ⟨m, d, top, bottom⟩ = .ok w) : w = ['0'] := by
  rw [toChars, if_pos hzero] at h
  exact (Except.ok.inj h).symm

theorem IsAlone.isNegative {t : Term} (h : t.IsAlone) : t.isNegative = false := by
  obtain ⟨hone, hwhole, -⟩ := h
  obtain ⟨m, d, top, bottom⟩ := t
  unfold denominatorIsOne at hwhole
  split at hwhole
  · next hdivisor =>
    rw [Term.isNegative, Value.isNegative_of_isOne hone, Value.isNegative_of_isOne hdivisor]
    rfl
  · cases hwhole

theorem AllowsMinus.getLast?_ne {t next : Term} {rest : List Term} (h : t.AllowsMinus signed rest)
    (hnext : rest.head? = some next) (hneg : next.isNegative = true)
    (hw : t.toChars signed = .ok w) : (Text.withoutBlanks w).getLast? ≠ some '!' := by
  cases rest with
  | nil => cases hnext
  | cons s rest =>
    obtain rfl := Option.some.inj hnext
    exact h hneg w hw

/-- The factors of the term are written as they are within a product. -/
structure HasParts (c k : Rat) (top bottom : List Factor) : Prop where
  multiplier : Value.IsWritten c
  divisor : Value.IsWritten k
  above : ∀ pieces, Factor.visibleChars Precedence.product top = .ok pieces → SpellsFactors pieces top
  below : ∀ pieces, Factor.visibleChars Precedence.product bottom = .ok pieces →
    SpellsFactors pieces bottom
  lone : Factor.visible bottom = .ok [] → ¬ Value.IsRatio k

theorem HasParts.lone_pieces (hparts : HasParts c k top bottom)
    (hvs : Factor.visible bottom = .ok vs)
    (hpieces : Factor.visibleChars Precedence.product bottom = .ok pieces) :
    pieces = [] → ¬ Value.IsRatio k := by
  intro hnil
  apply hparts.lone
  rw [hvs, List.isEmpty_iff.mp ((Factor.isEmpty_visibleChars hpieces hvs).trans (by simp [hnil]))]

theorem spelled_apart (hparts : HasParts c k top bottom) (hc : c ≠ 0)
    (hapart : ¬ IsAlone ⟨.exact c, .exact k, top, bottom⟩)
    (hsign : c = -1 → start ∨ Factor.LeadsWithAtom top)
    (hsign' : k = -1 → Factor.LeadsWithAtom bottom)
    (h : toChars true ⟨.exact c, .exact k, top, bottom⟩ = .ok w) :
    Spelled start (precedence ⟨.exact c, .exact k, top, bottom⟩) w
      fun I => meaning? I ⟨.exact c, .exact k, top, bottom⟩ := by
  obtain ⟨vs, whole, pieces, hvs, hwhole, hpieces, hcases⟩ := toChars_eq_ok h hc
  have hsingle : ¬ (c = 1 ∧ whole = true ∧ vs.length = 1) := by
    rintro ⟨rfl, rfl, hlength⟩
    obtain ⟨f, rfl⟩ := List.length_eq_one_iff.mp hlength
    exact hapart ⟨by simp, hwhole, f, hvs⟩
  rw [if_neg hsingle] at hpieces
  have htop := hparts.above pieces hpieces
  rcases hcases with ⟨rfl, rfl⟩ | ⟨rfl, us, pieces', hus, hpieces', rfl⟩
  · have hspells := spells_whole hparts.multiplier htop hwhole hsign
    by_cases hnil : vs = []
    · subst hnil
      obtain rfl : pieces = [] := by
        have hempty := Factor.isEmpty_visibleChars hpieces hvs
        simpa using hempty.symm
      have hlone : Value.wholeChars c true [] =
          Value.signed (decide (c < 0)) (Value.magnitudeChars c) := by
        rw [Value.wholeChars_eq (Value.spells_side hparts.multiplier htop hsign).ne_nil,
          Value.sideChars, juxtapose_nil]
        simp [Value.coefficientText]
      rw [hlone]
      refine ((Value.spelled hparts.multiplier start).of_precedence fun p hp => ?_).weaken
        fun I q hq => ?_
      · rcases precedence_eq_ok hp hvs hwhole with rfl | ⟨-, -, -, rfl⟩ | ⟨-, -, hlength, -⟩
        · exact .inl le_rfl
        · exact .inr rfl
        · cases hlength
      · obtain ⟨n, hn, rfl⟩ :=
          Option.map_eq_some_iff.mp (meaning?_of_denominatorIsOne hwhole hq).2
        rw [Factor.product?_of_visible_nil hvs hn, mul_one]
    · refine .of_loose hspells.sum fun p hp => ?_
      rcases precedence_eq_ok hp hvs hwhole with rfl | ⟨-, hnil', -⟩ | ⟨-, hone, hlength, -⟩
      · exact le_rfl
      · exact absurd hnil' hnil
      · exact absurd ⟨hone, rfl, hlength⟩ hsingle
  · have hspells := spells_fraction hparts.multiplier hparts.divisor htop
      (hparts.below pieces' hpieces') (hparts.lone_pieces hus hpieces') hsign hsign'
    refine .of_loose hspells.sum fun p hp => ?_
    rcases precedence_eq_ok hp hvs hwhole with rfl | ⟨hfalse, -⟩ | ⟨hfalse, -⟩
    · exact le_rfl
    · cases hfalse
    · cases hfalse

theorem spells_apart_unsigned (hparts : HasParts c k top bottom) (hc : c ≠ 0)
    (hapart : ¬ IsAlone ⟨.exact c, .exact k, top, bottom⟩)
    (h : toChars false ⟨.exact c, .exact k, top, bottom⟩ = .ok w) :
    Tier.product.Spells w (magnitude? ⟨.exact c, .exact k, top, bottom⟩) := by
  obtain ⟨vs, whole, pieces, hvs, hwhole, hpieces, hcases⟩ := toChars_eq_ok h hc
  have hsingle : ¬ (c = 1 ∧ whole = true ∧ vs.length = 1) := by
    rintro ⟨rfl, rfl, hlength⟩
    obtain ⟨f, rfl⟩ := List.length_eq_one_iff.mp hlength
    exact hapart ⟨by simp, hwhole, f, hvs⟩
  rw [if_neg hsingle] at hpieces
  have htop := hparts.above pieces hpieces
  rcases hcases with ⟨rfl, rfl⟩ | ⟨rfl, us, pieces', hus, hpieces', rfl⟩
  · exact spells_whole_unsigned hparts.multiplier htop hwhole
  · exact spells_fraction_unsigned hparts.multiplier hparts.divisor htop
      (hparts.below pieces' hpieces') (hparts.lone_pieces hus hpieces')

theorem spelled_alone {m d : Value} (halone : IsAlone ⟨m, d, top, bottom⟩)
    (hfactor : ∀ f pieces, Factor.visible top = .ok [f] →
      Factor.visibleChars Precedence.anything top = .ok pieces →
      ∃ u, pieces = [u] ∧
        Spelled start (Factor.precedenceOfFirst top) u fun I => Factor.product? I top)
    (hm : ∃ c, m = .exact c) (hd : ∃ k, d = .exact k)
    (h : toChars signed ⟨m, d, top, bottom⟩ = .ok w) :
    Spelled start (precedence ⟨m, d, top, bottom⟩) w
      fun I => meaning? I ⟨m, d, top, bottom⟩ := by
  obtain ⟨hone, hwhole, f, hf⟩ := halone
  obtain ⟨c, rfl⟩ := hm
  obtain ⟨k, rfl⟩ := hd
  obtain rfl : c = 1 := by simpa using hone
  obtain ⟨vs, whole, pieces, hvs, hwhole', hpieces, hcases⟩ := toChars_eq_ok h one_ne_zero
  obtain rfl := Except.ok.inj (hf.symm.trans hvs)
  obtain rfl := Except.ok.inj (hwhole.symm.trans hwhole')
  rw [if_pos ⟨rfl, rfl, rfl⟩] at hpieces
  obtain ⟨u, rfl, hspelled⟩ := hfactor f pieces hf hpieces
  obtain ⟨-, rfl⟩ | ⟨hfalse, -⟩ := hcases
  · have hside : Value.sideChars 1 signed [u] = u := by
      have hcoefficient : Value.coefficientText 1 false signed = [] := by
        simp [Value.coefficientText, Value.signed]
      rw [Value.sideChars, List.isEmpty_cons, hcoefficient, nil_juxtapose, intercalate_cons]
      simp
    rw [Value.wholeChars_eq (by rw [hside]; exact hspelled.whole.ne_nil), hside]
    refine (hspelled.of_precedence fun p hp => ?_).weaken fun I q hq => ?_
    · rcases precedence_eq_ok hp hvs hwhole with rfl | ⟨-, hnil, -⟩ | ⟨-, -, -, hfirst⟩
      · exact .inl le_rfl
      · cases hnil
      · exact .inr hfirst
    · obtain ⟨n, hn, rfl⟩ :=
        Option.map_eq_some_iff.mp (meaning?_of_denominatorIsOne hwhole hq).2
      rw [one_mul]
      exact hn
  · cases hfalse

end Term

/-- The text of a factor spells it within a product. -/
theorem SpellsFactors.cons {f : Factor} {fs : List Factor} {pieces : List (List Char)}
    {u w : List Char} (hone : f.isOne = .ok false)
    (hw : embed Precedence.product f.precedence (.ok u) = .ok w)
    (hf : Spelled False f.precedence u fun I => f.meaning? I) (hfs : SpellsFactors pieces fs) :
    SpellsFactors (w :: pieces) (f :: fs) := by
  obtain ⟨ps, hps, -, hproduct⟩ := hfs
  obtain ⟨k, v, hk, hv, rfl⟩ := embed_eq_ok.mp hw
  obtain rfl := Except.ok.inj hv
  obtain ⟨p, hp, hplain, hatom, hvalue⟩ : ∃ p : Phrase .power,
      Reads (Text.withoutBlanks (if Precedence.product < k then u else bracketed u)) p.lexemes ∧
      Text.BeginsPlainly (if Precedence.product < k then u else bracketed u) ∧
      (k ≤ Precedence.product ∨ Precedence.postfixed < k → p.LeadsWithAtom) ∧
      ∀ I q, f.meaning? I = some q → p.value? I = some q := by
    by_cases hloose : k ≤ Precedence.product ∨ Precedence.postfixed < k
    · obtain ⟨a, ha, hplain, hvalue⟩ := hf.embed_atom hk hloose
      exact ⟨.unary (.atom a), ha, hplain, fun _ => trivial, hvalue⟩
    · obtain ⟨p, hp, hplain, hvalue⟩ := hf.embed_product hk
      exact ⟨p, hp, hplain, fun h => absurd h hloose, hvalue⟩
  refine ⟨p :: ps, .cons ⟨hp, hplain⟩ hps, fun hleads p' hp' => ?_, fun I q hq => ?_⟩
  · obtain rfl := Option.some.inj hp'
    apply hatom
    apply hleads
    simp [Factor.precedenceOfFirst, hone, hk]
  · obtain ⟨a, b, ha, hb, rfl⟩ := Factor.product?_cons_eq_some.mp hq
    exact Phrase.product?_cons_eq_some.mpr ⟨a, b, hvalue I a ha, hproduct I b hb, rfl⟩

theorem SpellsFactors.skip {f : Factor} {fs : List Factor} {pieces : List (List Char)}
    (hone : f.isOne = .ok true) (hfs : SpellsFactors pieces fs) : SpellsFactors pieces (f :: fs) := by
  obtain ⟨ps, hps, hleads, hproduct⟩ := hfs
  refine ⟨ps, hps, fun hatom => hleads fun k hk => hatom k ?_, fun I q hq => ?_⟩
  · simpa [Factor.precedenceOfFirst, hone] using hk
  · obtain ⟨a, b, ha, hb, rfl⟩ := Factor.product?_cons_eq_some.mp hq
    rw [Factor.isOne_sound f hone ha, one_mul]
    exact hproduct I b hb

namespace Tier

variable {start : Prop} {v w : List Char} {m n : Denotation} {q : Rat}

/-- What two texts come to together. -/
def both (op : Rat → Rat → Rat) (m n : Denotation) : Denotation := fun I => do
  return op (← m I) (← n I)

theorem both_eq_some {op : Rat → Rat → Rat} :
    both op m n I = some q ↔ ∃ a b, m I = some a ∧ n I = some b ∧ op a b = q := by
  simp [both, Option.bind_eq_some_iff]

theorem withoutBlanks_operator (c : Char) (hc : Text.isBlank c = false) (v w : List Char) :
    Text.withoutBlanks (v ++ [' ', c, ' '] ++ w) =
      Text.withoutBlanks v ++ c :: Text.withoutBlanks w := by
  rw [List.append_assoc, Text.withoutBlanks_append]
  simp [Text.withoutBlanks, hc, show Text.isBlank ' ' = true by decide]

theorem reads_plus {l r : Phrase .sum} (hl : Reads (Text.withoutBlanks v) l.lexemes)
    (hr : Reads (Text.withoutBlanks w) r.lexemes) :
    Reads (Text.withoutBlanks (v ++ " + ".toList ++ w)) (l.plus r).lexemes := by
  rw [Phrase.lexemes_plus, show " + ".toList = [' ', '+', ' '] from rfl,
    withoutBlanks_operator '+' (by decide)]
  exact hl.joined hr (by decide) (Lexeme.ofUnit_symbol .add) (by simp)

/-- After a sum another one is added, with or without a sign of its own. -/
theorem SpellsSigned.plus (h : Tier.sum.SpellsSigned start v m) (hw : SpellsWithin w n) :
    Tier.sum.SpellsSigned start (v ++ " + ".toList ++ w) (both (· + ·) m n) := by
  obtain ⟨r, hr, hn⟩ := hw
  rcases h with ⟨l, hl, hplain, hm⟩ | ⟨u, l, rfl, hl, hplain, hstart, hm⟩
  · refine .inl ⟨l.plus r, reads_plus hl hr, (hplain.append _).append _, fun I q hq => ?_⟩
    obtain ⟨a, b, ha, hb, rfl⟩ := both_eq_some.mp hq
    exact Phrase.value?_plus (hm I a ha) r (hn I b hb)
  · refine .inr ⟨u ++ " + ".toList ++ w, l.plus r, rfl, reads_plus hl hr,
      (hplain.append _).append _, ?_, fun I q hq => ?_⟩
    · exact hstart.imp_right fun hatom => Phrase.leadsWithAtom_plus hatom r
    · obtain ⟨a, b, ha, hb, rfl⟩ := both_eq_some.mp hq
      rw [Phrase.signed_plus]
      exact Phrase.value?_plus (hm I a ha) r (hn I b hb)

theorem reads_minus {l : Phrase .sum} {r : Phrase .product}
    (hl : Reads (Text.withoutBlanks v) l.lexemes) (hr : Reads (Text.withoutBlanks w) r.lexemes)
    (hlast : (Text.withoutBlanks v).getLast? ≠ some '!') (hplain : Text.BeginsPlainly w) :
    Reads (Text.withoutBlanks (v ++ " - ".toList ++ w))
      (Phrase.add l .subtract (by decide) r).lexemes := by
  rw [show " - ".toList = [' ', '-', ' '] from rfl, withoutBlanks_operator '-' (by decide)]
  exact hl.joined hr (by decide) (Lexeme.ofUnit_symbol .subtract) fun _ => ⟨hlast, hplain.head?_ne⟩

/-- After a sum a product is subtracted, but not after an exclamation mark. -/
theorem SpellsSigned.minus (h : Tier.sum.SpellsSigned start v m) (hw : Tier.product.Spells w n)
    (hlast : (Text.withoutBlanks v).getLast? ≠ some '!') :
    Tier.sum.SpellsSigned start (v ++ " - ".toList ++ w) (both (· - ·) m n) := by
  obtain ⟨r, hr, hplainRight, hn⟩ := hw
  rcases h with ⟨l, hl, hplain, hm⟩ | ⟨u, l, rfl, hl, hplain, hstart, hm⟩
  · refine .inl ⟨_, reads_minus hl hr hlast hplainRight, (hplain.append _).append _,
      fun I q hq => ?_⟩
    obtain ⟨a, b, ha, hb, rfl⟩ := both_eq_some.mp hq
    exact Phrase.value?_add.mpr ⟨a, b, hm I a ha, hn I b hb, rfl⟩
  · have hlast' : (Text.withoutBlanks u).getLast? ≠ some '!' := by
      intro hu
      rw [Text.withoutBlanks_cons (by decide),
        List.getLast?_cons_of_ne_nil (List.ne_nil_of_mem (List.mem_of_getLast? hu))] at hlast
      exact hlast hu
    refine .inr ⟨u ++ " - ".toList ++ w, _, rfl, reads_minus hl hr hlast' hplainRight,
      (hplain.append _).append _, ?_, fun I q hq => ?_⟩
    · simpa [Phrase.LeadsWithAtom] using hstart
    · obtain ⟨a, b, ha, hb, rfl⟩ := both_eq_some.mp hq
      rw [Phrase.signed]
      exact Phrase.value?_add.mpr ⟨a, b, hm I a ha, hn I b hb, rfl⟩

theorem getLast?_operator_ne {c : Char} (hc : Text.isBlank c = false) (hne : c ≠ '!')
    (hw : (Text.withoutBlanks w).getLast? ≠ some '!') :
    (Text.withoutBlanks (v ++ [' ', c, ' '] ++ w)).getLast? ≠ some '!' := by
  rw [withoutBlanks_operator c hc, List.getLast?_append_of_ne_nil _ (by simp)]
  rcases List.eq_nil_or_concat (Text.withoutBlanks w) with hnil | ⟨us, u, hu⟩
  · simpa [hnil] using hne
  · rwa [List.getLast?_cons_of_ne_nil (by simp [hu])]

end Tier

/-- The operator before a term of a sum. -/
def Term.operatorChars (t : Term) : List Char :=
  if t.isNegative then " - ".toList else " + ".toList

/-- A sum goes on with a term, whose sign is the operator before it. -/
theorem Tier.SpellsSigned.next {start : Prop} {v w : List Char} {m : Denotation} {t : Term}
    (h : Tier.sum.SpellsSigned start v m)
    (hminus : t.isNegative = true → Tier.product.Spells w t.magnitude?)
    (hplus : t.isNegative = false → Tier.sum.SpellsSigned False w fun I => t.meaning? I)
    (hlast : t.isNegative = true → (Text.withoutBlanks v).getLast? ≠ some '!') :
    Tier.sum.SpellsSigned start (v ++ t.operatorChars ++ w)
      (Tier.both (· + ·) m fun I => t.meaning? I) := by
  cases hneg : t.isNegative with
  | false =>
    rw [Term.operatorChars, hneg]
    exact h.plus (hplus hneg).within
  | true =>
    rw [Term.operatorChars, hneg]
    refine (h.minus (hminus hneg) (hlast hneg)).weaken fun I q hq => ?_
    obtain ⟨a, b, ha, hb, rfl⟩ := Tier.both_eq_some.mp hq
    exact Tier.both_eq_some.mpr
      ⟨a, -b, ha, Term.magnitude?_eq_some.mpr ⟨b, hb, by rw [hneg]; rfl⟩, sub_neg_eq_add a b⟩

theorem Term.getLast?_operatorChars_ne {v w : List Char} (t : Term)
    (hw : (Text.withoutBlanks w).getLast? ≠ some '!') :
    (Text.withoutBlanks (v ++ t.operatorChars ++ w)).getLast? ≠ some '!' := by
  unfold operatorChars
  split
  · exact Tier.getLast?_operator_ne (c := '-') (by decide) (by decide) hw
  · exact Tier.getLast?_operator_ne (c := '+') (by decide) (by decide) hw

theorem Tier.spells_name {name : String} (h : Lexeme.IsName name)
    (hplain : Text.BeginsPlainly name.toList) :
    Tier.atom.Spells name.toList fun I => (Tree.variable name).meaning? I := by
  refine ⟨nameOperand name, ?_, hplain, fun I q hq => hq⟩
  rw [Text.withoutBlanks_eq_self fun d hd => isBlank_of_mem_name h hd]
  exact reads_name h

theorem Tier.spells_constant (k : Constant) :
    Tier.atom.Spells k.symbol.toList fun I => (Tree.constant k).meaning? I := by
  have hblanks : Text.withoutBlanks k.symbol.toList = k.symbol.toList := by cases k <;> decide
  refine ⟨constantOperand k, ?_, ?_, fun I q hq => hq⟩
  · rw [hblanks]
    exact reads_constant k
  · cases k <;> exact ⟨_, _, rfl, .inl (by decide)⟩

/-- The texts of arguments, with separators between them. -/
def SpellsArguments (w : List Char) (ts : List Tree) : Prop :=
  ∃ args : Arguments ts.length, Reads (Text.withoutBlanks w) args.lexemes ∧
    ∀ I qs, Tree.meanings? I ts = some qs → args.values? I = some qs

theorem SpellsArguments.last {t : Tree} {w : List Char}
    (h : Tier.SpellsWithin w fun I => t.meaning? I) : SpellsArguments w [t] := by
  obtain ⟨p, hp, hm⟩ := h
  refine ⟨.last p, hp, fun I qs hqs => ?_⟩
  obtain ⟨q, qs', hq, hqs', rfl⟩ := Tree.meanings?_cons_eq_some.mp hqs
  obtain rfl := Option.some.inj hqs'
  simp [Arguments.values?, hm I q hq]

theorem SpellsArguments.cons {t : Tree} {ts : List Tree} {v w : List Char}
    (h : Tier.SpellsWithin v fun I => t.meaning? I) (hw : SpellsArguments w ts) :
    SpellsArguments (v ++ ", ".toList ++ w) (t :: ts) := by
  obtain ⟨p, hp, hm⟩ := h
  obtain ⟨args, hargs, hvalues⟩ := hw
  refine ⟨.cons p args, ?_, fun I qs hqs => ?_⟩
  · have hblanks : Text.withoutBlanks (v ++ ", ".toList ++ w) =
        Text.withoutBlanks v ++ ',' :: Text.withoutBlanks w := by
      rw [List.append_assoc, Text.withoutBlanks_append]
      simp [Text.withoutBlanks, show Text.isBlank ' ' = true by decide,
        show Text.isBlank ',' = false by decide]
    rw [hblanks]
    exact hp.joined hargs (by decide) Lexeme.ofUnit_separator (by simp)
  · obtain ⟨q, qs', hq, hqs', rfl⟩ := Tree.meanings?_cons_eq_some.mp hqs
    simp [Arguments.values?, hm I q hq, hvalues I qs' hqs']

theorem SpellsArguments.call {f : Function} {ts : List Tree} {w : List Char}
    (h : SpellsArguments w ts) (hlength : ts.length = f.arity) :
    Tier.atom.Spells (f.name.toList ++ bracketed w) fun I => (Tree.call f ts).meaning? I := by
  obtain ⟨args, hargs, hvalues⟩ := h
  have hcall : ∀ {n : Nat}, n = f.arity → (args : Arguments n) →
      ∃ p : Phrase .atom, p.lexemes = .function f :: .operator .juxtapose :: .opening "(" ::
          (args.lexemes ++ [.closing ")"]) ∧
        ∀ I, p.value? I = (do I.ofFunction f (← args.values? I)) := by
    rintro n rfl args
    exact ⟨.call f "(" ")" args, rfl, fun I => rfl⟩
  obtain ⟨p, hp, hvalue⟩ := hcall hlength args
  have hname : Text.withoutBlanks f.name.toList = f.name.toList := by cases f <;> decide
  refine ⟨p, ?_, ?_, fun I q hq => ?_⟩
  · rw [hp, Text.withoutBlanks_append, hname, bracketed, List.cons_append,
      Text.withoutBlanks_cons (by decide), Text.withoutBlanks_append]
    exact hargs.call f
  · obtain ⟨c, v, hc, hletter⟩ : ∃ c v, f.name.toList = c :: v ∧ Text.isLetter c = true := by
      cases f <;> exact ⟨_, _, rfl, by decide⟩
    exact ⟨c, v ++ bracketed w, by rw [hc]; rfl, .inl hletter⟩
  · obtain ⟨qs, hqs, hq⟩ := Option.bind_eq_some_iff.mp hq
    rw [hvalue, hvalues I qs hqs]
    exact hq

theorem spelled_remainder {a b : Tree} {v w : List Char} {start : Prop}
    (hv : Tier.power.Spells v fun I => a.meaning? I)
    (hw : Tier.power.Spells w fun I => b.meaning? I) :
    Spelled start (.ok Function.remainder.precedence) (v ++ " % ".toList ++ w)
      fun I => (Tree.call .remainder [a, b]).meaning? I := by
  obtain ⟨p, hp, hplain, hm⟩ := hv
  obtain ⟨r, hr, -, hn⟩ := hw
  refine .of_loose (.inl ⟨.product (.multiply (.power p) .remainder (by decide) r), ?_,
    (hplain.append _).append _, fun I q hq => ?_⟩) fun k hk => ?_
  · rw [show " % ".toList = [' ', '%', ' '] from rfl,
      Tier.withoutBlanks_operator '%' (by decide)]
    exact hp.joined hr (by decide) (Lexeme.ofUnit_symbol .remainder) (by simp)
  · obtain ⟨qs, hqs, hq⟩ := Option.bind_eq_some_iff.mp hq
    obtain ⟨x, xs, hx, hxs, rfl⟩ := Tree.meanings?_cons_eq_some.mp hqs
    obtain ⟨y, ys, hy, hys, rfl⟩ := Tree.meanings?_cons_eq_some.mp hxs
    obtain rfl := Option.some.inj hys
    exact Phrase.value?_multiply.mpr ⟨x, y, hm I x hx, hn I y hy, hq⟩
  · obtain rfl := Except.ok.inj hk
    exact le_rfl

theorem spelled_factorial {a : Tree} {v : List Char} {start : Prop}
    (hv : Tier.atom.Spells v fun I => a.meaning? I) :
    Spelled start (.ok Function.factorial.precedence) (v ++ ['!'])
      fun I => (Tree.call .factorial [a]).meaning? I := by
  obtain ⟨p, hp, hplain, hm⟩ := hv
  have hspells : Tier.unary.Spells (v ++ ['!'])
      fun I => (Tree.call .factorial [a]).meaning? I := by
    refine ⟨.factorial (.atom p), ?_, hplain.append _, fun I q hq => ?_⟩
    · rw [Text.withoutBlanks_append]
      exact hp.postfixed
    · obtain ⟨qs, hqs, hq⟩ := Option.bind_eq_some_iff.mp hq
      obtain ⟨x, xs, hx, hxs, rfl⟩ := Tree.meanings?_cons_eq_some.mp hqs
      obtain rfl := Option.some.inj hxs
      simpa [Phrase.value?, hm I x hx] using hq
  refine ⟨.inl hspells.power.product.sum, fun _ _ _ => hspells.power, fun _ _ _ => hspells,
    fun k hk hlt => ?_⟩
  obtain rfl := Except.ok.inj hk
  exact absurd hlt (lt_irrefl _)

def Tree.AllSpelled (ts : List Tree) : Prop :=
  ∀ t ∈ ts, ∀ w, t.toChars = .ok w → Spelled False t.precedence w fun I => t.meaning? I

theorem Tree.spellsArguments {ts : List Tree} {texts : List (List Char)} (hne : ts ≠ [])
    (hts : Tree.AllSpelled ts) (h : Tree.argumentChars ts = .ok texts) :
    SpellsArguments (", ".toList.intercalate texts) ts := by
  induction ts generalizing texts with
  | nil => exact absurd rfl hne
  | cons t ts ih =>
    obtain ⟨v, hv, h⟩ := bind_eq_ok.mp h
    obtain ⟨ws, hws, h⟩ := bind_eq_ok.mp h
    obtain rfl := Except.ok.inj h
    obtain ⟨-, hv⟩ := (embed_anything_eq_ok fun k => t.precedence_pos).mp hv
    have hfirst := (hts t List.mem_cons_self v hv).whole.within
    cases ts with
    | nil =>
      obtain rfl := Except.ok.inj hws
      simpa [List.intercalate] using SpellsArguments.last hfirst
    | cons t' ts =>
      have hrest := ih (by simp) (fun s hs => hts s (List.mem_cons_of_mem _ hs)) hws
      obtain ⟨u, us, rfl⟩ : ∃ u us, ws = u :: us := by
        obtain ⟨u, -, hws⟩ := bind_eq_ok.mp hws
        obtain ⟨us, -, hws⟩ := bind_eq_ok.mp hws
        exact ⟨u, us, (Except.ok.inj hws).symm⟩
      simpa [List.intercalate] using hrest.cons hfirst

theorem Tree.callChars_eq {f : Function} {args : List Tree} (hremainder : f ≠ .remainder)
    (hfactorial : f ≠ .factorial) :
    (Tree.call f args).toChars = do
      return f.name.toList ++
        bracketed (", ".toList.intercalate (← Tree.argumentChars args)) := by
  cases f <;> first | rfl | contradiction

theorem Tree.spelled_call {f : Function} {args : List Tree} {start : Prop} {w : List Char}
    (hlength : args.length = f.arity) (hargs : Tree.AllSpelled args)
    (h : (Tree.call f args).toChars = .ok w) :
    Spelled start (Tree.call f args).precedence w fun I => (Tree.call f args).meaning? I := by
  by_cases hremainder : f = .remainder
  · subst hremainder
    obtain ⟨a, b, rfl⟩ := List.length_eq_two.mp hlength
    obtain ⟨v, hv, h⟩ := bind_eq_ok.mp h
    obtain ⟨u, hu, h⟩ := bind_eq_ok.mp h
    obtain rfl := Except.ok.inj h
    obtain ⟨k, left, hk, hleft, rfl⟩ := embed_eq_ok.mp hv
    obtain ⟨l, right, hl, hright, rfl⟩ := embed_eq_ok.mp hu
    exact spelled_remainder ((hargs a (by simp) left hleft).embed_product hk)
      ((hargs b (by simp) right hright).embed_product hl)
  by_cases hfactorial : f = .factorial
  · subst hfactorial
    obtain ⟨a, rfl⟩ := List.length_eq_one_iff.mp hlength
    obtain ⟨v, hv, h⟩ := bind_eq_ok.mp h
    obtain rfl := Except.ok.inj h
    obtain ⟨k, text, hk, htext, rfl⟩ := embed_eq_ok.mp hv
    exact spelled_factorial ((hargs a (by simp) text htext).embed_postfixed hk)
  · have hne : args ≠ [] := by
      rintro rfl
      cases f <;> cases hlength
    rw [Tree.callChars_eq hremainder hfactorial] at h
    obtain ⟨texts, htexts, h⟩ := bind_eq_ok.mp h
    obtain rfl := Except.ok.inj h
    exact .of_atom ((Tree.spellsArguments hne hargs htexts).call hlength)

theorem Factor.spelled_first {base exponent : Tree} {start : Prop} {w : List Char}
    (hone : exponent.isOne = .ok true)
    (h : Spelled start base.precedence w fun I => base.meaning? I) :
    Spelled start (Factor.precedence ⟨base, exponent⟩) w
      fun I => Factor.meaning? I ⟨base, exponent⟩ := by
  refine (h.of_precedence fun k hk => .inr ?_).weaken fun I q hq => ?_
  · simpa [Factor.precedence, hone] using hk
  · obtain ⟨b, hb, hq⟩ := Option.bind_eq_some_iff.mp hq
    obtain ⟨e, he, hq⟩ := Option.bind_eq_some_iff.mp hq
    obtain rfl := Tree.isOne_sound exponent hone he
    rw [raise?_one] at hq
    rw [hb, hq]

theorem Factor.spelled_power {base exponent : Tree} {start : Prop} {v w : List Char}
    (hone : exponent.isOne = .ok false) (hv : Tier.unary.Spells v fun I => base.meaning? I)
    (hw : Tier.unary.Spells w fun I => exponent.meaning? I) :
    Spelled start (Factor.precedence ⟨base, exponent⟩) (v ++ '^' :: w)
      fun I => Factor.meaning? I ⟨base, exponent⟩ := by
  obtain ⟨u, hu, hplain, hm⟩ := hv
  obtain ⟨p, hp, -, hn⟩ := hw
  have hspells : Tier.power.Spells (v ++ '^' :: w)
      fun I => Factor.meaning? I ⟨base, exponent⟩ := by
    refine ⟨.raise u (.unary p), ?_, hplain.append _, fun I q hq => ?_⟩
    · rw [Text.withoutBlanks_append, Text.withoutBlanks_cons (by decide)]
      exact hu.joined hp (by decide) (Lexeme.ofUnit_symbol .raise) (by simp)
    · obtain ⟨b, hb, hq⟩ := Option.bind_eq_some_iff.mp hq
      obtain ⟨e, he, hq⟩ := Option.bind_eq_some_iff.mp hq
      simpa [Phrase.value?, hm I b hb, hn I e he] using hq
  have hprecedence : Factor.precedence ⟨base, exponent⟩ = .ok Precedence.power := by
    simp [Factor.precedence, hone]
  refine ⟨.inl hspells.product.sum, fun _ _ _ => hspells, fun k hk hlt => ?_, fun k hk hlt => ?_⟩
  · obtain rfl := Except.ok.inj (hprecedence.symm.trans hk)
    exact absurd hlt (by decide)
  · obtain rfl := Except.ok.inj (hprecedence.symm.trans hk)
    exact absurd hlt (by decide)

mutual

/-- The text of a legible tree spells what the tree means. -/
theorem Tree.spelled : (t : Tree) → {start : Prop} → {w : List Char} → t.IsWellFormed →
    t.IsLegible start → t.toChars = .ok w → Spelled start t.precedence w fun I => t.meaning? I
  | .number v, start, w, hwell, hlegible, h => by
    obtain ⟨q, rfl, hq⟩ := hlegible
    obtain rfl := Value.exactChars_eq_ok h
    exact Value.spelled hq start
  | .constant c, start, w, hwell, hlegible, h => by
    obtain rfl := Except.ok.inj h
    exact .of_atom (Tier.spells_constant c)
  | .variable name, start, w, hwell, hlegible, h => by
    obtain rfl := Except.ok.inj h
    exact .of_atom (Tier.spells_name hwell hlegible)
  | .power f, start, w, hwell, hlegible, h => f.spelled hwell hlegible h
  | .term t, start, w, hwell, hlegible, h => t.spelled hwell hlegible h
  | .sum [], start, w, hwell, hlegible, h => absurd rfl hwell.1
  | .sum (t :: rest), start, w, hwell, hlegible, h => by
    obtain ⟨v, hv, h⟩ := bind_eq_ok.mp h
    obtain ⟨u, hu, h⟩ := bind_eq_ok.mp h
    obtain rfl := Except.ok.inj h
    have hfirst := (t.spelled hwell.2.1 hlegible.1 hv).whole
    have hsum := Term.spells_rest rest hwell.2.2 hlegible.2.2 hu hfirst fun next hnext hneg =>
      hlegible.2.1.getLast?_ne hnext hneg hv
    refine .of_loose (hsum.weaken fun I q hq => ?_) fun k hk => ?_
    · obtain ⟨a, b, ha, hb, rfl⟩ := Term.total?_cons_eq_some.mp hq
      exact Tier.both_eq_some.mpr ⟨a, b, ha, hb, rfl⟩
    · obtain rfl := Except.ok.inj hk
      decide
  | .call f args, start, w, hwell, hlegible, h =>
    Tree.spelled_call hwell.1 (Tree.allSpelled args hwell.2 hlegible) h

theorem Factor.spelled : (f : Factor) → {start : Prop} → {w : List Char} → f.IsWellFormed →
    f.IsLegible start → f.toChars = .ok w → Spelled start f.precedence w fun I => f.meaning? I
  | ⟨base, exponent⟩, start, w, hwell, hlegible, h => by
    obtain ⟨one, hone, h⟩ := bind_eq_ok.mp h
    cases one with
    | true =>
      obtain ⟨-, hw⟩ := (embed_anything_eq_ok fun k => base.precedence_pos).mp h
      have hbase := base.spelled hwell.1 hlegible.1 hw
      exact Factor.spelled_first hone (hbase.mono And.left)
    | false =>
      obtain ⟨v, hv, h⟩ := bind_eq_ok.mp h
      obtain ⟨u, hu, h⟩ := bind_eq_ok.mp h
      obtain rfl := Except.ok.inj h
      obtain ⟨k, left, hk, hleft, rfl⟩ := embed_eq_ok.mp hv
      obtain ⟨l, right, hl, hright, rfl⟩ := embed_eq_ok.mp hu
      have hbase := base.spelled hwell.1 hlegible.1 hleft
      have hexponent := exponent.spelled hwell.2 (hlegible.2.resolve_left (by simp [hone])) hright
      have hwithin : Spelled False base.precedence left fun I => base.meaning? I :=
        hbase.mono fun hstart => by simp [hone] at hstart
      exact Factor.spelled_power hone (hwithin.embed_power hk) (hexponent.embed_power hl)

theorem Term.spelled : (t : Term) → {start : Prop} → {w : List Char} → t.IsWellFormed →
    t.IsLegible start true → t.toChars true = .ok w →
    Spelled start t.precedence w fun I => t.meaning? I
  | ⟨m, d, top, bottom⟩, start, w, hwell, hlegible, h => by
    by_cases hzero : m.isZero = true
    · obtain rfl := Term.toChars_of_isZero hzero h
      exact .of_atom (spells_zero.weaken fun I q hq => by rw [Term.meaning?_of_isZero hzero hq])
    obtain ⟨⟨c, rfl, hc⟩, ⟨k, rfl, hk⟩, htop, hbottom, hsign, hsign', hlone⟩ :=
      hlegible.resolve_left hzero
    by_cases halone : Term.IsAlone ⟨.exact c, .exact k, top, bottom⟩
    · refine Term.spelled_alone halone (fun f pieces hf hpieces => ?_) ⟨c, rfl⟩ ⟨k, rfl⟩ h
      obtain ⟨u, hu, hspelled⟩ := Factor.spelled_only top hwell.1 htop hf hpieces
      exact ⟨u, hu, hspelled.mono And.left⟩
    · have hwithin : (start ∧ Term.IsAlone ⟨.exact c, .exact k, top, bottom⟩) = False := by
        simp [halone]
      rw [hwithin] at htop
      have hparts : Term.HasParts c k top bottom :=
        ⟨hc, hk, fun _ => Factor.spellsFactors top hwell.1 htop,
          fun _ => Factor.spellsFactors bottom hwell.2 hbottom, fun hnil => hlone hnil k rfl⟩
      exact Term.spelled_apart hparts (by simpa using hzero) halone
        (fun hone => hsign rfl (congrArg Value.exact hone))
        (fun hone => hsign' rfl (congrArg Value.exact hone)) h

theorem Term.spells_later : (t : Term) → {w : List Char} → t.IsWellFormed →
    t.IsLegible False false → t.toChars false = .ok w →
    (t.isNegative = true → Tier.product.Spells w t.magnitude?) ∧
      (t.isNegative = false → Tier.sum.SpellsSigned False w fun I => t.meaning? I)
  | ⟨m, d, top, bottom⟩, w, hwell, hlegible, h => by
    by_cases hzero : m.isZero = true
    · obtain rfl := Term.toChars_of_isZero hzero h
      refine ⟨fun _ => spells_zero.unary.power.product.weaken fun I q hq => ?_,
        fun _ => .inl (spells_zero.unary.power.product.sum.weaken fun I q hq => ?_)⟩
      · obtain ⟨r, hr, rfl⟩ := Term.magnitude?_eq_some.mp hq
        rw [Term.meaning?_of_isZero hzero hr]
        simp
      · rw [Term.meaning?_of_isZero hzero hq]
    obtain ⟨⟨c, rfl, hc⟩, ⟨k, rfl, hk⟩, htop, hbottom, -, -, hlone⟩ := hlegible.resolve_left hzero
    rw [false_and] at htop
    by_cases halone : Term.IsAlone ⟨.exact c, .exact k, top, bottom⟩
    · refine ⟨fun hneg => absurd hneg (by simp [halone.isNegative]), fun _ => ?_⟩
      refine (Term.spelled_alone halone (fun f pieces hf hpieces => ?_) ⟨c, rfl⟩ ⟨k, rfl⟩ h).whole
      exact Factor.spelled_only top hwell.1 htop hf hpieces
    · have hparts : Term.HasParts c k top bottom :=
        ⟨hc, hk, fun _ => Factor.spellsFactors top hwell.1 htop,
          fun _ => Factor.spellsFactors bottom hwell.2 hbottom, fun hnil => hlone hnil k rfl⟩
      have hspells := Term.spells_apart_unsigned hparts (by simpa using hzero) halone h
      refine ⟨fun _ => hspells, fun hneg => .inl (hspells.sum.weaken fun I q hq => ?_)⟩
      exact Term.magnitude?_eq_some.mpr ⟨q, hq, by rw [hneg]; rfl⟩

theorem Factor.spellsFactors : (fs : List Factor) → {pieces : List (List Char)} →
    Factor.AllWellFormed fs → Factor.AllLegible False fs →
    Factor.visibleChars Precedence.product fs = .ok pieces → SpellsFactors pieces fs
  | [], pieces, hwell, hlegible, h => by
    obtain rfl := Except.ok.inj h
    exact ⟨[], .nil, by simp, fun I q hq => hq⟩
  | f :: rest, pieces, hwell, hlegible, h => by
    obtain ⟨one, ws, hone, hrest, hcases⟩ := Factor.visibleChars_cons_eq_ok.mp h
    have hfactors := Factor.spellsFactors rest hwell.2 hlegible.2 hrest
    rcases hcases with ⟨rfl, rfl⟩ | ⟨rfl, w, hw, rfl⟩
    · exact hfactors.skip hone
    · obtain ⟨k, u, hk, hu, -⟩ := embed_eq_ok.mp hw
      have hfactor := f.spelled hwell.1 (hlegible.1.resolve_left (by simp [hone])) hu
      rw [hu] at hw
      exact .cons hone hw hfactor hfactors

/-- The only factor that is written. -/
theorem Factor.spelled_only : (fs : List Factor) → {start : Prop} → {f : Factor} →
    {pieces : List (List Char)} → Factor.AllWellFormed fs → Factor.AllLegible start fs →
    Factor.visible fs = .ok [f] → Factor.visibleChars Precedence.anything fs = .ok pieces →
    ∃ u, pieces = [u] ∧
      Spelled start (Factor.precedenceOfFirst fs) u fun I => Factor.product? I fs
  | [], start, f, pieces, hwell, hlegible, hf, h => by cases hf
  | g :: rest, start, f, pieces, hwell, hlegible, hf, h => by
    obtain ⟨one, vs, hone, hvs, hcons⟩ := Factor.visible_cons_eq_ok.mp hf
    obtain ⟨one', ws, hone', hws, hcases⟩ := Factor.visibleChars_cons_eq_ok.mp h
    obtain rfl := Except.ok.inj (hone.symm.trans hone')
    rcases hcases with ⟨rfl, rfl⟩ | ⟨rfl, w, hw, rfl⟩
    · obtain rfl : vs = [f] := by simpa using hcons.symm
      obtain ⟨u, hu, hspelled⟩ := Factor.spelled_only rest hwell.2 hlegible.2 hvs hws
      refine ⟨u, hu, (hspelled.of_precedence fun k hk => .inr ?_).weaken fun I q hq => ?_⟩
      · simpa [Factor.precedenceOfFirst, hone] using hk
      · obtain ⟨a, b, ha, hb, rfl⟩ := Factor.product?_cons_eq_some.mp hq
        rw [Factor.isOne_sound g hone ha, one_mul]
        exact hb
    · obtain rfl : vs = [] := by simpa using (List.cons.inj hcons).2.symm
      obtain rfl : ws = [] := List.length_eq_zero_iff.mp (Factor.length_visibleChars hws hvs)
      obtain ⟨-, hu⟩ := (embed_anything_eq_ok fun k => g.precedence_pos).mp hw
      have hspelled := g.spelled hwell.1 (hlegible.1.resolve_left (by simp [hone])) hu
      refine ⟨w, rfl, (hspelled.of_precedence fun k hk => .inr ?_).weaken fun I q hq => ?_⟩
      · simpa [Factor.precedenceOfFirst, hone] using hk
      · obtain ⟨a, b, ha, hb, rfl⟩ := Factor.product?_cons_eq_some.mp hq
        rw [Factor.product?_of_visible_nil hvs hb, mul_one]
        exact ha

theorem Term.spells_rest : (ts : List Term) → {start : Prop} → {v w : List Char} →
    {m : Denotation} → Term.AllWellFormed ts → Term.AllLegible False false ts →
    Term.laterChars ts = .ok w → Tier.sum.SpellsSigned start v m →
    (∀ t, ts.head? = some t → t.isNegative = true →
      (Text.withoutBlanks v).getLast? ≠ some '!') →
    Tier.sum.SpellsSigned start (v ++ w) (Tier.both (· + ·) m fun I => Term.total? I ts)
  | [], start, v, w, m, hwell, hlegible, h, hv, hlast => by
    obtain rfl := Except.ok.inj h
    rw [List.append_nil]
    refine hv.weaken fun I q hq => ?_
    obtain ⟨a, b, ha, hb, rfl⟩ := Tier.both_eq_some.mp hq
    obtain rfl := Option.some.inj hb
    rw [ha, add_zero]
  | t :: rest, start, v, w, m, hwell, hlegible, h, hv, hlast => by
    obtain ⟨u, hu, h⟩ := bind_eq_ok.mp h
    obtain ⟨r, hr, h⟩ := bind_eq_ok.mp h
    obtain ⟨hminus, hplus⟩ := t.spells_later hwell.1 hlegible.1 hu
    have hnext := hv.next hminus hplus (hlast t rfl)
    have hrest := Term.spells_rest rest hwell.2 hlegible.2.2 hr hnext fun s hs hneg =>
      t.getLast?_operatorChars_ne (hlegible.2.1.getLast?_ne hs hneg hu)
    have htext : v ++ w = v ++ t.operatorChars ++ u ++ r := by
      rw [← Except.ok.inj h, Term.operatorChars, List.append_assoc v, List.append_assoc v]
    rw [htext]
    refine hrest.weaken fun I q hq => ?_
    obtain ⟨a, b, ha, hb, rfl⟩ := Tier.both_eq_some.mp hq
    obtain ⟨c, d, hc, hd, rfl⟩ := Term.total?_cons_eq_some.mp hb
    exact Tier.both_eq_some.mpr
      ⟨a + c, d, Tier.both_eq_some.mpr ⟨a, c, ha, hc, rfl⟩, hd, add_assoc a c d⟩

theorem Tree.allSpelled : (ts : List Tree) → Tree.AllWellFormed ts → Tree.AllLegible ts →
    Tree.AllSpelled ts
  | [], hwell, hlegible => by simp [Tree.AllSpelled]
  | t :: rest, hwell, hlegible =>
    List.forall_mem_cons.mpr ⟨fun _ hw => t.spelled hwell.1 hlegible.1 hw,
      Tree.allSpelled rest hwell.2 hlegible.2⟩

end

end SymbolicAlgebra
