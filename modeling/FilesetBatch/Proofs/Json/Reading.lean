import FilesetBatch.Json.Reader
import FilesetBatch.Proofs.Json.Layout

/-!
# What is written is read again

The reader is a machine that keeps what is open. On the lexemes of a plain value it does as
on a single lexeme that stands for the whole value : from any state in which a value may
come, it delivers the value into what is open (`Json.reads_of_plain`). With no array or
object open this is the end, so a text that is cut into the lexemes of a plain value is read
as that value (`Json.parse?_of_lexemes`), and both written forms are such texts.
-/

namespace FilesetBatch

variable {scrutiny : Scrutiny} {limit depth : Nat} {opened outer : List Open}
  {expected : Expected} {lexeme : Lexeme} {rest : List Lexeme} {value : Json}
  {items earlier : List Json} {members earlierMembers : List (String × Json)} {name : String}
  {text : String}

/-- Read on from where a lexeme has led. -/
def Reading.resume (scrutiny : Scrutiny) (rest : List Lexeme) :
    Reading → Option (Json × List Lexeme)
  | .done value => some (value, rest)
  | .goOn opened expected => Json.readFrom scrutiny opened expected rest
  | .wrong => none

namespace Json

theorem readFrom_cons : readFrom scrutiny opened expected (lexeme :: rest) =
    (Reading.step scrutiny opened expected lexeme).resume scrutiny rest := by
  rw [readFrom]
  cases Reading.step scrutiny opened expected lexeme <;> rfl

/-- A value does not begin as the end of an array. -/
theorem exists_toLexemes (value : Json) :
    ∃ front behind, value.toLexemes = front :: behind ∧ front ≠ .closeBracket := by
  match value with
  | null => exact ⟨_, _, rfl, nofun⟩
  | bool _ => exact ⟨_, _, rfl, nofun⟩
  | number _ => exact ⟨_, _, rfl, nofun⟩
  | string _ => exact ⟨_, _, rfl, nofun⟩
  | array [] => exact ⟨_, _, rfl, nofun⟩
  | array (item :: items) => exact ⟨_, _, rfl, nofun⟩
  | object [] => exact ⟨_, _, rfl, nofun⟩
  | object ((name, value) :: members) => exact ⟨_, _, rfl, nofun⟩

/-- The first item of an array is read as any other value. -/
theorem readFrom_first (value : Json) (rest : List Lexeme) :
    readFrom scrutiny (.array items :: outer) .first (value.toLexemes ++ rest) =
      readFrom scrutiny (.array items :: outer) .value (value.toLexemes ++ rest) := by
  obtain ⟨front, behind, heq, hfront⟩ := exists_toLexemes value
  have hstep : Reading.step scrutiny (.array items :: outer) .first front =
      Reading.step scrutiny (.array items :: outer) .value front := by
    cases front with
    | closeBracket => exact absurd rfl hfront
    | _ => rfl
  rw [heq, List.cons_append, readFrom_cons, readFrom_cons, hstep]

/-- In the innermost array or object, the value is read as a whole. -/
def Reads (limit : Nat) (opened : List Open) (value : Json) : Prop :=
  ∀ rest, readFrom (.full limit) opened .value (value.toLexemes ++ rest) =
    (Reading.deliver value opened).resume (.full limit) rest

theorem readFrom_itemLexemes
    (hitems : ∀ item ∈ items, ∀ earlier, Reads limit (.array earlier :: outer) item) :
    readFrom (.full limit) (.array earlier :: outer) .next
        (itemLexemes items ++ .closeBracket :: rest) =
      (Reading.deliver (.array (earlier.reverse ++ items)) outer).resume (.full limit) rest := by
  induction items generalizing earlier with
  | nil =>
    rw [itemLexemes, List.nil_append, List.append_nil, readFrom_cons]
    rfl
  | cons item items ih =>
    obtain ⟨hitem, hitems⟩ := List.forall_mem_cons.mp hitems
    have hcomma : readFrom (.full limit) (.array earlier :: outer) .next
        (itemLexemes (item :: items) ++ .closeBracket :: rest) =
          readFrom (.full limit) (.array earlier :: outer) .value
            (item.toLexemes ++ (itemLexemes items ++ .closeBracket :: rest)) := by
      simp only [itemLexemes, List.cons_append, List.append_assoc, readFrom_cons]
      rfl
    have hnext : (Reading.deliver item (.array earlier :: outer)).resume (.full limit)
        (itemLexemes items ++ .closeBracket :: rest) =
          readFrom (.full limit) (.array (item :: earlier) :: outer) .next
            (itemLexemes items ++ .closeBracket :: rest) := rfl
    rw [hcomma, hitem, hnext, ih hitems]
    simp

theorem readFrom_memberLexemes (hvalues : ∀ member ∈ members, ∀ earlier name,
      Reads limit (.member earlier name :: outer) member.2) :
    readFrom (.full limit) (.object earlierMembers :: outer) .next
        (memberLexemes members ++ .closeBrace :: rest) =
      (Reading.deliver (.object (earlierMembers.reverse ++ members)) outer).resume
        (.full limit) rest := by
  induction members generalizing earlierMembers with
  | nil =>
    rw [memberLexemes, List.nil_append, List.append_nil, readFrom_cons]
    rfl
  | cons member members ih =>
    obtain ⟨name, value⟩ := member
    obtain ⟨hvalue, hvalues⟩ := List.forall_mem_cons.mp hvalues
    have hname : readFrom (.full limit) (.object earlierMembers :: outer) .next
        (memberLexemes ((name, value) :: members) ++ .closeBrace :: rest) =
          readFrom (.full limit) (.member earlierMembers name :: outer) .value
            (value.toLexemes ++ (memberLexemes members ++ .closeBrace :: rest)) := by
      simp only [memberLexemes, List.cons_append, List.append_assoc, readFrom_cons]
      rfl
    have hnext : (Reading.deliver value (.member earlierMembers name :: outer)).resume
        (.full limit) (memberLexemes members ++ .closeBrace :: rest) =
          readFrom (.full limit) (.object ((name, value) :: earlierMembers) :: outer) .next
            (memberLexemes members ++ .closeBrace :: rest) := rfl
    rw [hname, hvalue, hnext, ih hvalues]
    simp

theorem allowsNumber_of_fits {number : Int} (h : Word.Fits number) :
    (Scrutiny.full limit).allowsNumber (.integer number) = true := by
  simp [Scrutiny.allowsNumber, Number.inRange, Word.natAbs_le_of_fits h]

theorem readFrom_openBracket (hopen : opened.length < limit) :
    readFrom (.full limit) opened .value (.openBracket :: rest) =
      readFrom (.full limit) (.array [] :: opened) .first rest := by
  rw [readFrom_cons]
  simp [Reading.step, Reading.startValue, Scrutiny.allowsOpening, hopen, Reading.resume]

theorem readFrom_openBrace (hopen : opened.length < limit) :
    readFrom (.full limit) opened .value (.openBrace :: rest) =
      readFrom (.full limit) (.object [] :: opened) .first rest := by
  rw [readFrom_cons]
  simp [Reading.step, Reading.startValue, Scrutiny.allowsOpening, hopen, Reading.resume]

/-- Where there is room for what is in it, a plain value is read as a whole. -/
theorem reads_of_plain (h : Plain depth value) (hdepth : opened.length + depth ≤ limit) :
    Reads limit opened value := by
  induction h generalizing opened with
  | null => exact fun rest => readFrom_cons
  | bool => exact fun rest => readFrom_cons
  | @integer depth number fits =>
    intro rest
    have hstart : Reading.startValue (.full limit) opened (.number (.integer number)) =
        Reading.deliver (.integer number) opened := by
      rw [Reading.startValue, if_pos (allowsNumber_of_fits fits)]
      rfl
    rw [Json.integer, toLexemes, List.singleton_append, readFrom_cons]
    exact congrArg _ hstart
  | string => exact fun rest => readFrom_cons
  | @array depth items items_plain ih =>
    intro rest
    have hitems : ∀ item ∈ items, ∀ earlier, Reads limit (.array earlier :: opened) item :=
      fun item hmem earlier => ih item hmem (by simp only [List.length_cons]; omega)
    cases items with
    | nil =>
      rw [toLexemes, List.cons_append, readFrom_openBracket (by omega), List.singleton_append,
        readFrom_cons]
      rfl
    | cons item items =>
      obtain ⟨hitem, hitems⟩ := List.forall_mem_cons.mp hitems
      simp only [toLexemes, List.cons_append, List.append_assoc, List.nil_append]
      rw [readFrom_openBracket (by omega), readFrom_first, hitem]
      exact readFrom_itemLexemes hitems
  | @object depth members values_plain ih =>
    intro rest
    have hvalues : ∀ member ∈ members, ∀ earlier name,
        Reads limit (.member earlier name :: opened) member.2 :=
      fun member hmem earlier name => ih member hmem (by simp only [List.length_cons]; omega)
    cases members with
    | nil =>
      rw [toLexemes, List.cons_append, readFrom_openBrace (by omega), List.singleton_append,
        readFrom_cons]
      rfl
    | cons member members =>
      obtain ⟨name, value⟩ := member
      obtain ⟨hvalue, hvalues⟩ := List.forall_mem_cons.mp hvalues
      have hname : readFrom (.full limit) (.object [] :: opened) .first
          (.string (some name) :: .colon ::
            (value.toLexemes ++ (memberLexemes members ++ .closeBrace :: rest))) =
          readFrom (.full limit) (.member [] name :: opened) .value
            (value.toLexemes ++ (memberLexemes members ++ .closeBrace :: rest)) := by
        simp only [readFrom_cons]
        rfl
      simp only [toLexemes, List.cons_append, List.append_assoc, List.nil_append]
      rw [readFrom_openBrace (by omega), hname, hvalue]
      exact readFrom_memberLexemes hvalues

/-- A plain value at the front is read, and what follows it is left alone. -/
theorem read_toLexemes (h : Plain depth value) (hdepth : depth ≤ limit) (rest : List Lexeme) :
    read (.full limit) (value.toLexemes ++ rest) = some (value, rest) :=
  reads_of_plain h (by simpa using hdepth) rest

/-! ## Texts -/

theorem parse?_of_lexemes (h : Plain depth value) (hdepth : depth ≤ maxDepth)
    (htext : lexemes text.toList = value.toLexemes) : parse? text = some value := by
  have hread := read_toLexemes h hdepth []
  rw [List.append_nil] at hread
  rw [parse?, htext, hread]

theorem lexemes_compactText (h : Plain depth value) :
    lexemes value.compactText.toList = value.toLexemes := by
  simpa [compactText] using lexemes_compact h .nil

theorem lexemes_prettyText (h : Plain depth value) :
    lexemes value.prettyText.toList = value.toLexemes := by
  simpa [prettyText] using lexemes_pretty h .nil

/-- The line end behind a printed value does not matter. -/
theorem lexemes_prettyText_newline (h : Plain depth value) :
    lexemes (value.prettyText ++ "\n").toList = value.toLexemes := by
  have hend : EndsNumber ['\n'] := .cons (by decide) []
  have hline : lexemes ['\n'] = [] := (lexemes_of_isBlank rfl).trans lexemes_nil
  simpa [prettyText, hline] using lexemes_pretty h hend

end Json

end FilesetBatch
