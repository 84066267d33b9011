import Chronicle.Proofs.Decimal
import Chronicle.Proofs.Text.Quoted

/-!
# The lexemes of a printed value

Each part of a printed value is read as the lexeme that it was printed for.
-/

namespace Chronicle.Datum

open Scan
open Text.Numeral (Spelling isDigit_ne isDigit_of_mem_toDigits)
open Text.Quoted (hex read_hex hexDigit?_digitChar)

/-- Nothing follows, or a mark. -/
def Ends (cs : List Char) : Prop := ∀ c ∈ cs.head?, isMark c

theorem ends_nil : Ends [] := by simp [Ends]

theorem ends_cons {c : Char} (hc : isMark c) (cs : List Char) : Ends (c :: cs) := by
  simpa [Ends] using hc

/-! ### Marks and words -/

theorem isBlank_of_isMark {c : Char} (hc : isMark c) : isBlank c = false := by
  simp only [isMark, List.contains_eq_mem, decide_eq_true_eq, List.mem_cons, List.not_mem_nil,
    or_false] at hc
  rcases hc with rfl | rfl | rfl | rfl | rfl | rfl <;> rfl

variable (done : List Lexeme)

theorem lexemesFrom_mark {c : Char} (hc : isMark c) (cs : List Char) :
    lexemesFrom done .gap (c :: cs) = lexemesFrom (.mark c :: done) .gap cs := by
  simp [lexemesFrom, step, isBlank_of_isMark hc, hc]

/-- A character that ends no word. -/
def InWord (c : Char) : Prop := isBlank c = false ∧ isMark c = false ∧ c ≠ '"'

instance : DecidablePred InWord :=
  fun c => inferInstanceAs (Decidable (isBlank c = false ∧ isMark c = false ∧ c ≠ '"'))

theorem lexemesFrom_inWord {word : List Char} (hword : ∀ c ∈ word, InWord c)
    (read rest : List Char) :
    lexemesFrom done (.word read) (word ++ rest) =
      lexemesFrom done (.word (word.reverse ++ read)) rest := by
  induction word generalizing read with
  | nil => rfl
  | cons c cs ih =>
    obtain ⟨hblank, hmark, hquote⟩ := hword c List.mem_cons_self
    have hrest := ih (fun d hd => hword d (List.mem_cons_of_mem c hd)) (c :: read)
    simpa [lexemesFrom, step, hblank, hmark, hquote] using hrest

theorem lexemesFrom_endWord {rest : List Char} (hrest : Ends rest) (read : List Char) :
    lexemesFrom done (.word read) rest = lexemesFrom (.word read.reverse :: done) .gap rest := by
  cases rest with
  | nil => rfl
  | cons c cs =>
    have hc : isMark c := hrest c rfl
    rw [lexemesFrom_mark _ hc]
    simp [lexemesFrom, step, isBlank_of_isMark hc, hc]

theorem lexemesFrom_word {word rest : List Char} (hword : ∀ c ∈ word, InWord c) (hne : word ≠ [])
    (hrest : Ends rest) :
    lexemesFrom done .gap (word ++ rest) = lexemesFrom (.word word :: done) .gap rest := by
  obtain ⟨c, cs, rfl⟩ := List.exists_cons_of_ne_nil hne
  obtain ⟨hblank, hmark, hquote⟩ := hword c List.mem_cons_self
  have hread := lexemesFrom_inWord done (fun d hd => hword d (List.mem_cons_of_mem c hd)) [c] rest
  rw [lexemesFrom_endWord done hrest] at hread
  simpa [lexemesFrom, step, hblank, hmark, hquote] using hread

/-! ### Texts -/

theorem joined_map_toNat (cs : List Char) : joined (cs.map Char.toNat) = cs := by
  induction cs with
  | nil => rfl
  | cons c cs ih =>
    -- A character of its own is neither half of one.
    have hvalid : c.toNat < 0xd800 ∨ 0xe000 ≤ c.toNat := by
      rcases c.valid with h | h
      · exact .inl h
      · exact .inr h.1
    rw [List.map_cons, joined.eq_def]
    dsimp only
    rw [if_neg (by omega), if_neg (by omega), ih, Char.ofNat_toNat]

theorem lexemesFrom_hex (units : List Nat) (k : Nat) (rest : List Char) :
    lexemesFrom done (.code units 4 0) (hex 4 k ++ rest) =
      lexemesFrom done (.text (k % 16 ^ 4 :: units)) rest := by
  have h := read_hex (fun missing unit cs => lexemesFrom done
    (if missing = 0 then .text (unit :: units) else .code units missing unit) cs)
    (fun missing unit d cs hd => by
      cases missing <;> simp [lexemesFrom, step, hexDigit?_digitChar hd]) 4 k 0 rest
  simpa using h

theorem lexemesFrom_escape (units : List Nat) (c : Char) (rest : List Char) :
    lexemesFrom done (.text units) (escape c ++ rest) =
      lexemesFrom done (.text (c.toNat :: units)) rest := by
  unfold escape
  split_ifs with hescaped hcontrol
  · rcases (by simpa using hescaped : c = '"' ∨ c = '\\') with rfl | rfl <;> rfl
  · have hroom : c.toNat % 16 ^ 4 = c.toNat := Nat.mod_eq_of_lt (by omega)
    have hread := lexemesFrom_hex done units c.toNat rest
    rw [hroom] at hread
    simpa [lexemesFrom, step] using hread
  · simp only [Bool.or_eq_true, decide_eq_true_eq, not_or] at hescaped
    simp [lexemesFrom, step, hescaped]

theorem lexemesFrom_flatMap_escape (cs : List Char) (units : List Nat) (rest : List Char) :
    lexemesFrom done (.text units) (cs.flatMap escape ++ rest) =
      lexemesFrom done (.text ((cs.map Char.toNat).reverse ++ units)) rest := by
  induction cs generalizing units with
  | nil => rfl
  | cons c cs ih =>
    rw [List.flatMap_cons, List.append_assoc, lexemesFrom_escape, ih]
    simp

theorem lexemesFrom_quote (s : String) (rest : List Char) :
    lexemesFrom done .gap ((quote s).toList ++ rest) = lexemesFrom (.text s :: done) .gap rest := by
  have hopen : lexemesFrom done .gap ((quote s).toList ++ rest) =
      lexemesFrom done (.text []) (s.toList.flatMap escape ++ '"' :: rest) := by
    simp [quote, lexemesFrom, step, isBlank, isMark]
  rw [hopen, lexemesFrom_flatMap_escape, List.append_nil]
  simp [lexemesFrom, step, joined_map_toNat]

/-! ### Printed words -/

theorem inWord_of_all {cs : List Char} (h : cs.all (InWord ·)) : ∀ c ∈ cs, InWord c :=
  fun c hc => of_decide_eq_true (List.all_eq_true.1 h c hc)

theorem inWord_of_number {c : Char} (hc : c.isDigit ∨ c ∈ ['-', '+', '.', 'e']) : InWord c := by
  rcases hc with hc | hc
  · have hne : ∀ d : Char, d.isDigit = false → c ≠ d := fun d hd => isDigit_ne hc hd
    simp [InWord, isBlank, isMark, hne]
  · simp only [List.mem_cons, List.not_mem_nil, or_false] at hc
    rcases hc with rfl | rfl | rfl | rfl <;> exact ⟨rfl, rfl, by decide⟩

theorem inWord_toString (z : Int) : ∀ c ∈ (toString z).toList, InWord c := by
  intro c hc
  apply inWord_of_number
  rw [Spelling.toList_toString, List.mem_append] at hc
  rcases hc with h | h
  · right
    split_ifs at h
    · rw [List.mem_singleton.1 h]; decide
    · simp at h
  · exact .inl (isDigit_of_mem_toDigits _ c h)

theorem toList_toString_ne_nil (z : Int) : (toString z).toList ≠ [] := by
  rw [Spelling.toList_toString]
  simp

theorem inWord_text (x : Decimal) : ∀ c ∈ x.text.toList, InWord c :=
  fun c hc => inWord_of_number (x.numeric_of_mem_text c hc)

/-! ### Values -/

mutual

/-- The lexemes that a value is printed as. -/
def lexemesOf : Datum → List Lexeme
  | null => [.word "null".toList]
  | truth b => [.word (if b then "true" else "false").toList]
  | integer n => [.word (toString n).toList]
  | decimal x => [.word x.text.toList]
  | text s => [.text s]
  | list items => .mark '[' :: [.mark ','].intercalate (itemLexemes items) ++ [.mark ']']
  | record fields =>
    .mark '\x7b' :: [.mark ','].intercalate (fieldLexemes fields) ++ [.mark '\x7d']

def itemLexemes : List Datum → List (List Lexeme)
  | [] => []
  | d :: ds => lexemesOf d :: itemLexemes ds

def fieldLexemes : List (String × Datum) → List (List Lexeme)
  | [] => []
  | (name, d) :: ds => (.text name :: .mark ':' :: lexemesOf d) :: fieldLexemes ds

end

/-- Whatever comes before the text and, after a mark, behind it, the text is read as the lexemes. -/
def Reads (s : String) (lexemes : List Lexeme) : Prop :=
  ∀ (done : List Lexeme) (rest : List Char), Ends rest →
    lexemesFrom done .gap (s.toList ++ rest) = lexemesFrom (lexemes.reverse ++ done) .gap rest

theorem reads_word {s : String} (hword : ∀ c ∈ s.toList, InWord c) (hne : s.toList ≠ []) :
    Reads s [.word s.toList] :=
  fun done _ hrest => lexemesFrom_word done hword hne hrest

theorem reads_quote (s : String) : Reads (quote s) [.text s] :=
  fun done rest _ => lexemesFrom_quote done s rest

theorem Reads.append_mark {s t : String} {lexemes after : List Lexeme} {c : Char}
    (hs : Reads s lexemes) (hc : isMark c) (ht : Reads t after) {text : String}
    (htext : text.toList = s.toList ++ c :: t.toList) :
    Reads text (lexemes ++ .mark c :: after) := by
  intro done rest hrest
  rw [htext, List.append_assoc, List.cons_append, hs _ _ (ends_cons hc _), lexemesFrom_mark _ hc,
    ht _ _ hrest]
  simp

theorem reads_nil : Reads "" [] := fun _ _ _ => rfl

theorem Reads.enclosed {s : String} {lexemes : List Lexeme} {a b : Char} (hs : Reads s lexemes)
    (ha : isMark a) (hb : isMark b) {text : String} (htext : text.toList = a :: s.toList ++ [b]) :
    Reads text (.mark a :: lexemes ++ [.mark b]) := by
  have hopen : Reads (String.ofList (a :: s.toList)) ([] ++ .mark a :: lexemes) :=
    reads_nil.append_mark ha hs (by simp)
  exact hopen.append_mark hb reads_nil (by simpa using htext)

theorem reads_intercalate {texts : List String} {parts : List (List Lexeme)}
    (h : List.Forall₂ Reads texts parts) :
    Reads (",".intercalate texts) ([.mark ','].intercalate parts) := by
  induction h with
  | nil => exact reads_nil
  | @cons s lexemes texts parts hs h ih =>
    cases h with
    | nil => simpa using hs
    | cons hs' h =>
      rw [List.intercalate_cons_cons, List.append_assoc]
      exact hs.append_mark rfl ih (by simp [String.intercalate_cons_cons])

mutual

theorem reads_toJson (d : Datum) : Reads (toJson d) (lexemesOf d) := by
  cases d with
  | null => exact reads_word (inWord_of_all rfl) (by decide)
  | truth b => cases b <;> exact reads_word (inWord_of_all rfl) (by decide)
  | integer n => exact reads_word (inWord_toString n) (toList_toString_ne_nil n)
  | decimal x => exact reads_word (inWord_text x) x.toList_text_ne_nil
  | text s => exact reads_quote s
  | list items =>
    exact (reads_intercalate (reads_itemsToJson items)).enclosed rfl rfl (by simp [toJson])
  | record fields =>
    exact (reads_intercalate (reads_fieldsToJson fields)).enclosed rfl rfl (by simp [toJson])

theorem reads_itemsToJson (ds : List Datum) :
    List.Forall₂ Reads (itemsToJson ds) (itemLexemes ds) := by
  cases ds with
  | nil => exact .nil
  | cons d ds => exact .cons (reads_toJson d) (reads_itemsToJson ds)

theorem reads_fieldsToJson (ds : List (String × Datum)) :
    List.Forall₂ Reads (fieldsToJson ds) (fieldLexemes ds) := by
  cases ds with
  | nil => exact .nil
  | cons e ds =>
    obtain ⟨name, d⟩ := e
    have hfield : Reads (quote name ++ ":" ++ toJson d)
        ([.text name] ++ .mark ':' :: lexemesOf d) :=
      (reads_quote name).append_mark rfl (reads_toJson d) (by simp)
    exact .cons hfield (reads_fieldsToJson ds)

end

theorem lexemes?_toJson (d : Datum) : lexemes? (toJson d) = some (lexemesOf d) := by
  have h := reads_toJson d [] [] ends_nil
  simpa [lexemes?, lexemesFrom] using h

end Chronicle.Datum
