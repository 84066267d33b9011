import Chronicle.Proofs.Datum.Lexeme
import Chronicle.Proofs.Valuation

/-!
# Printed values are read back

A value of which each record has distinct names is read back from its JSON: the same value, but
that a decimal may be held by other digits of the same number.  So two such values have one JSON
if and only if they are alike.
-/

namespace Chronicle.Datum

mutual

/-- Each record has distinct names. -/
def Distinct : Datum → Prop
  | list items => AllDistinct items
  | record fields => (fields.map Prod.fst).Nodup ∧ FieldsDistinct fields
  | _ => True

def AllDistinct : List Datum → Prop
  | [] => True
  | d :: ds => Distinct d ∧ AllDistinct ds

def FieldsDistinct : List (String × Datum) → Prop
  | [] => True
  | (_, d) :: ds => Distinct d ∧ FieldsDistinct ds

end

/-- The same value, up to the digits by which a decimal is held. -/
inductive Alike : Datum → Datum → Prop
  | null : Alike null null
  | truth (b : Bool) : Alike (truth b) (truth b)
  | integer (n : Int) : Alike (integer n) (integer n)
  | decimal {x y : Decimal} (h : x.Same y) : Alike (decimal x) (decimal y)
  | text (s : String) : Alike (text s) (text s)
  | list {items others : List Datum} (h : List.Forall₂ Alike items others) :
    Alike (list items) (list others)
  | record {fields others : List (String × Datum)}
    (hnames : fields.map Prod.fst = others.map Prod.fst)
    (h : List.Forall₂ Alike (fields.map Prod.snd) (others.map Prod.snd)) :
    Alike (record fields) (record others)

open Progress

/-! ### Reading -/

/-- Where a value is awaited, the lexemes supply it. -/
def Supplies (lexemes : List Lexeme) (d : Datum) : Prop :=
  ∀ frames awaited, awaited = .value ∨ awaited = .firstItem →
    lexemes.foldlM step (.inside frames awaited) = some (supply d frames)

theorem supplies_word {cs : List Char} {d : Datum} (h : ofWord? cs = some d) :
    Supplies [.word cs] d := by
  rintro frames awaited (rfl | rfl) <;> simp [step, h]

theorem supplies_text (s : String) : Supplies [.text s] (.text s) := by
  rintro frames awaited (rfl | rfl) <;> simp [step]

/-- Items behind a first one, or the first. -/
theorem foldlM_items {parts : List (List Lexeme)} {items : List Datum}
    (h : List.Forall₂ Supplies parts items) (hne : items ≠ []) (frames : List Frame)
    (done : List Datum) {awaited : Awaited} (hawaited : awaited = .value ∨ awaited = .firstItem) :
    ([.mark ','].intercalate parts).foldlM step (.inside (.list done :: frames) awaited) =
      some (.inside (.list (items.reverse ++ done) :: frames) .next) := by
  induction h generalizing done awaited with
  | nil => exact absurd rfl hne
  | @cons part d parts items hd h ih =>
    cases h with
    | nil => simpa [supply] using hd (.list done :: frames) awaited hawaited
    | @cons part' d' parts items hd' h =>
      rw [List.intercalate_cons_cons, List.append_assoc, List.foldlM_append, hd _ _ hawaited]
      have hrest := ih (List.cons_ne_nil d' items) (d :: done) (.inl rfl)
      simpa [supply, step, mark] using hrest

theorem supplies_list {parts : List (List Lexeme)} {items : List Datum}
    (h : List.Forall₂ Supplies parts items) :
    Supplies (.mark '[' :: [.mark ','].intercalate parts ++ [.mark ']']) (.list items) := by
  intro frames awaited hawaited
  have hopen : step (.inside frames awaited) (.mark '[') =
      some (.inside (.list [] :: frames) .firstItem) := by
    rcases hawaited with rfl | rfl <;> rfl
  rw [List.cons_append, List.foldlM_cons, hopen, Option.bind_eq_bind, Option.bind_some,
    List.foldlM_append]
  cases h with
  | nil => rfl
  | @cons part d parts items hd h =>
    rw [foldlM_items (.cons hd h) (List.cons_ne_nil d items) frames [] (.inr rfl)]
    simp [step, mark]

/-- The lexemes of a name, a colon and a value. -/
def SuppliesField (lexemes : List Lexeme) (e : String × Datum) : Prop :=
  ∃ value, lexemes = .text e.1 :: .mark ':' :: value ∧ Supplies value e.2

theorem SuppliesField.foldlM {lexemes : List Lexeme} {e : String × Datum}
    (h : SuppliesField lexemes e) {done : List (String × Datum)} (hnew : e.1 ∉ done.map Prod.fst)
    (frames : List Frame) (name : String) {awaited : Awaited}
    (hawaited : awaited = .name ∨ awaited = .firstName) :
    lexemes.foldlM step (.inside (.record done name :: frames) awaited) =
      some (.inside (.record (done ++ [e]) e.1 :: frames) .next) := by
  obtain ⟨value, rfl, hvalue⟩ := h
  have hname : step (.inside (.record done name :: frames) awaited) (.text e.1) =
      some (.inside (.record done e.1 :: frames) .colon) := by
    rcases hawaited with rfl | rfl <;> rfl
  have hcolon : step (.inside (.record done e.1 :: frames) .colon) (.mark ':') =
      some (.inside (.record done e.1 :: frames) .value) := rfl
  simp only [List.foldlM_cons, hname, hcolon, Option.bind_eq_bind, Option.bind_some,
    hvalue _ _ (.inl rfl), supply, Table.put_of_notMem hnew]

theorem foldlM_fields {parts : List (List Lexeme)} {fields : List (String × Datum)}
    (h : List.Forall₂ SuppliesField parts fields) (hne : fields ≠ []) (frames : List Frame)
    {done : List (String × Datum)} (hnames : ((done ++ fields).map Prod.fst).Nodup) (name : String)
    {awaited : Awaited} (hawaited : awaited = .name ∨ awaited = .firstName) :
    ∃ last, ([.mark ','].intercalate parts).foldlM step
        (.inside (.record done name :: frames) awaited) =
      some (.inside (.record (done ++ fields) last :: frames) .next) := by
  induction h generalizing done name awaited with
  | nil => exact absurd rfl hne
  | @cons part e parts fields he h ih =>
    have hnew : e.1 ∉ done.map Prod.fst := by
      rw [List.map_append, List.nodup_append] at hnames
      exact fun hmem => hnames.2.2 e.1 hmem e.1 List.mem_cons_self rfl
    have hfirst := he.foldlM hnew frames name hawaited
    cases h with
    | nil => exact ⟨e.1, by simpa using hfirst⟩
    | @cons part' e' parts fields he' h =>
      have hnames' : ((done ++ [e] ++ e' :: fields).map Prod.fst).Nodup := by simpa using hnames
      obtain ⟨last, hrest⟩ := ih (List.cons_ne_nil e' fields) hnames' e.1 (.inl rfl)
      refine ⟨last, ?_⟩
      rw [List.intercalate_cons_cons, List.append_assoc, List.foldlM_append, hfirst]
      simpa [step, mark] using hrest

theorem supplies_record {parts : List (List Lexeme)} {fields : List (String × Datum)}
    (h : List.Forall₂ SuppliesField parts fields) (hnames : (fields.map Prod.fst).Nodup) :
    Supplies (.mark '\x7b' :: [.mark ','].intercalate parts ++ [.mark '\x7d'])
      (.record fields) := by
  intro frames awaited hawaited
  have hopen : step (.inside frames awaited) (.mark '\x7b') =
      some (.inside (.record [] "" :: frames) .firstName) := by
    rcases hawaited with rfl | rfl <;> rfl
  rw [List.cons_append, List.foldlM_cons, hopen, Option.bind_eq_bind, Option.bind_some,
    List.foldlM_append]
  cases h with
  | nil => rfl
  | @cons part e parts fields he h =>
    have hnames' : (([] ++ e :: fields).map Prod.fst).Nodup := hnames
    obtain ⟨last, hall⟩ :=
      foldlM_fields (.cons he h) (List.cons_ne_nil e fields) frames hnames' "" (.inr rfl)
    rw [hall]
    simp [step, mark]

mutual

theorem exists_supplies (d : Datum) (hd : Distinct d) :
    ∃ d', Alike d d' ∧ Supplies (lexemesOf d) d' := by
  cases d with
  | null => exact ⟨_, .null, supplies_word (by rfl)⟩
  | truth b => exact ⟨_, .truth b, supplies_word (by cases b <;> rfl)⟩
  | integer n => exact ⟨_, .integer n, supplies_word (ofWord?_toString n)⟩
  | decimal x =>
    obtain ⟨y, hread, hsame⟩ := x.ofWord?_text
    exact ⟨_, .decimal hsame, supplies_word hread⟩
  | text s => exact ⟨_, .text s, supplies_text s⟩
  | list items =>
    obtain ⟨others, halike, hsupplies⟩ := exists_supplies_items items hd
    exact ⟨_, .list halike, supplies_list hsupplies⟩
  | record fields =>
    obtain ⟨others, hnames, halike, hsupplies⟩ := exists_supplies_fields fields hd.2
    exact ⟨_, .record hnames halike, supplies_record hsupplies (hnames ▸ hd.1)⟩

theorem exists_supplies_items (items : List Datum) (hd : AllDistinct items) :
    ∃ others, List.Forall₂ Alike items others ∧
      List.Forall₂ Supplies (itemLexemes items) others := by
  cases items with
  | nil => exact ⟨[], .nil, .nil⟩
  | cons d ds =>
    obtain ⟨d', hd', hread⟩ := exists_supplies d hd.1
    obtain ⟨ds', hds', hreads⟩ := exists_supplies_items ds hd.2
    exact ⟨d' :: ds', .cons hd' hds', .cons hread hreads⟩

theorem exists_supplies_fields (fields : List (String × Datum)) (hd : FieldsDistinct fields) :
    ∃ others : List (String × Datum), fields.map Prod.fst = others.map Prod.fst ∧
      List.Forall₂ Alike (fields.map Prod.snd) (others.map Prod.snd) ∧
      List.Forall₂ SuppliesField (fieldLexemes fields) others := by
  cases fields with
  | nil => exact ⟨[], rfl, .nil, .nil⟩
  | cons e ds =>
    obtain ⟨name, d⟩ := e
    obtain ⟨d', hd', hread⟩ := exists_supplies d hd.1
    obtain ⟨ds', hnames, hds', hreads⟩ := exists_supplies_fields ds hd.2
    exact ⟨(name, d') :: ds', congrArg (name :: ·) hnames, .cons hd' hds',
      .cons ⟨_, rfl, hread⟩ hreads⟩

end

theorem ofJson?_toJson (d : Datum) (hd : Distinct d) :
    ∃ d', ofJson? (toJson d) = some d' ∧ Alike d d' := by
  obtain ⟨d', halike, hsupplies⟩ := exists_supplies d hd
  refine ⟨d', ?_, halike⟩
  rw [ofJson?, lexemes?_toJson, Option.bind_eq_bind, Option.bind_some,
    hsupplies [] .value (.inl rfl)]
  rfl

/-! ### One JSON -/

mutual

theorem toJson_congr {d e : Datum} (h : Alike d e) : toJson d = toJson e := by
  cases h with
  | null => rfl
  | truth b => rfl
  | integer n => rfl
  | decimal h => simp only [toJson, Decimal.text_congr h]
  | text s => rfl
  | list h => simp only [toJson, itemsToJson_congr h]
  | record hnames h => simp only [toJson, fieldsToJson_congr hnames h]

theorem itemsToJson_congr {items others : List Datum} (h : List.Forall₂ Alike items others) :
    itemsToJson items = itemsToJson others := by
  cases h with
  | nil => rfl
  | cons hd h => simp only [itemsToJson, toJson_congr hd, itemsToJson_congr h]

theorem fieldsToJson_congr {fields others : List (String × Datum)}
    (hnames : fields.map Prod.fst = others.map Prod.fst)
    (h : List.Forall₂ Alike (fields.map Prod.snd) (others.map Prod.snd)) :
    fieldsToJson fields = fieldsToJson others := by
  match fields, others with
  | [], [] => rfl
  | (name, d) :: ds, (name', d') :: ds' =>
    obtain ⟨hname, hnames⟩ := List.cons.inj hnames
    obtain ⟨hd, h⟩ := List.forall₂_cons.1 h
    dsimp only at hname hd
    simp only [fieldsToJson, hname, toJson_congr hd, fieldsToJson_congr hnames h]

end

mutual

theorem Alike.of_alike {d e f : Datum} (hd : Alike d f) (he : Alike e f) : Alike d e := by
  cases hd with
  | null => cases he; exact .null
  | truth b => cases he; exact .truth b
  | integer n => cases he; exact .integer n
  | decimal h =>
    cases he with
    | decimal h' => exact .decimal ⟨h.1.trans h'.1.symm, h.2.trans h'.2.symm⟩
  | text s => cases he; exact .text s
  | list h =>
    cases he with
    | list h' => exact .list (allAlike_of_alike h h')
  | record hnames h =>
    cases he with
    | record hnames' h' =>
      exact .record (hnames.trans hnames'.symm) (valuesAlike_of_alike h h')

theorem allAlike_of_alike {items others ds : List Datum} (h : List.Forall₂ Alike items ds)
    (h' : List.Forall₂ Alike others ds) : List.Forall₂ Alike items others := by
  cases h with
  | nil => cases h'; exact .nil
  | cons hd h =>
    cases h' with
    | cons he h' => exact .cons (hd.of_alike he) (allAlike_of_alike h h')

theorem valuesAlike_of_alike {fields : List (String × Datum)} {others ds : List Datum}
    (h : List.Forall₂ Alike (fields.map Prod.snd) ds) (h' : List.Forall₂ Alike others ds) :
    List.Forall₂ Alike (fields.map Prod.snd) others := by
  match fields, ds, others with
  | [], [], [] => exact .nil
  | (_, d) :: fields, _ :: ds, e :: others =>
    obtain ⟨hd, h⟩ := List.forall₂_cons.1 h
    obtain ⟨he, h'⟩ := List.forall₂_cons.1 h'
    exact .cons (hd.of_alike he) (valuesAlike_of_alike h h')

end

theorem toJson_eq_iff {d e : Datum} (hd : Distinct d) (he : Distinct e) :
    toJson d = toJson e ↔ Alike d e := by
  refine ⟨fun h => ?_, toJson_congr⟩
  obtain ⟨d', hread, halike⟩ := ofJson?_toJson d hd
  obtain ⟨e', hread', halike'⟩ := ofJson?_toJson e he
  rw [h, hread'] at hread
  obtain rfl := Option.some.inj hread
  exact halike.of_alike halike'

end Chronicle.Datum
