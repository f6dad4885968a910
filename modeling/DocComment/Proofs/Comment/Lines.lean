/-
  Types that go on over lines.

  Line terminators in the braces of a type are left out before it is read, wherever they
  stand.  The braces of a type are nested, so the brace that closes it is the one behind it,
  and the tag has the type that its text is by itself.

  * `typeOfExcerpt_of_parse`, `readType_of_parse`: the type of an excerpt and of a body;
  * `general_of_scan`, `general_of_parse`: the reading of a parameter with a type and a name;
  * `parse_param_of_parse`: the comment that such a parameter is.
-/
import DocComment.Proofs.Comment.Blocks
import DocComment.Proofs.Grammar.Braces
import DocComment.Proofs.Parser.Following

namespace DocComment

open Text

/-! ## Types -/

namespace TypeExpr

/-- No node of a type has a span if none is asked for. -/
theorem respan_of_parse {place : Place} {text : List Char} {t : TypeExpr}
    {span : Option Span → Option Span} (hspan : span none = none)
    (h : parse place {} text = .ok t) : t.respan span = t := by
  have hbare : t = t.respan fun _ => none := by
    have : parse place {} text = (parse place {} text).map (respan fun _ => none) :=
      parse_respan (fun _ _ => rfl) rfl place text
    rw [h] at this
    exact Except.ok.inj this
  have hconst : (span ∘ fun _ => none) = fun _ : Option Span => none := funext fun _ => hspan
  rw [hbare, respan_respan, hconst]

end TypeExpr

variable {t u : List Char} {n : TypeExpr}

theorem typeOfExcerpt_of_parse {place : TypeExpr.Place} {e : Excerpt} (he : e.text = t)
    (h : TypeExpr.parse place {} t = .ok n) : typeOfExcerpt place false e = .ok n := by
  have hparse : TypeExpr.parse place { range := false } e.text = .ok n := he ▸ h
  rw [typeOfExcerpt, hparse]
  exact congrArg Except.ok (TypeExpr.respan_of_parse rfl h)

theorem text_filter_place (offset : Nat) (cs : List Char) :
    Excerpt.text ((Excerpt.place offset cs).filter fun p => !isLineTerminator p.char) =
      cs.filter fun c => !isLineTerminator c := by
  rw [Excerpt.text_filter (fun c => !isLineTerminator c), Excerpt.text_place]

/-- The type of a body, however its lines break. -/
theorem readType_of_parse (offset : Nat) (behind : List Char)
    (h : TypeExpr.parse .param {} t = .ok n) (hs : StringsBraceless t)
    (hu : u.filter (fun c => !isLineTerminator c) = t) :
    ∃ rest, Excerpt.text rest = behind ∧
      readType "param" false (Excerpt.place offset (" \x7b".toList ++ u ++ '\x7d' :: behind)) =
        .ok (some n, rest) := by
  obtain ⟨opened, hopened⟩ : ∃ opened, opened = offset + width " \x7b".toList := ⟨_, rfl⟩
  have hinner := (text_filter_place opened u).trans hu
  have hbody : Excerpt.place offset (" \x7b".toList ++ u ++ '\x7d' :: behind) =
      [⟨' ', offset⟩] ++ ⟨'\x7b', offset + ' '.utf8Size⟩ :: (Excerpt.place opened u ++
        ⟨'\x7d', opened + width u⟩ ::
          Excerpt.place (opened + width u + '\x7d'.utf8Size) behind) := by
    rw [List.append_assoc, Excerpt.place_append, Excerpt.place_append, ← hopened]
    rfl
  have hbraced : bracedType .param false
      ([⟨' ', offset⟩] ++ ⟨'\x7b', offset + ' '.utf8Size⟩ :: (Excerpt.place opened u ++
        ⟨'\x7d', opened + width u⟩ ::
          Excerpt.place (opened + width u + '\x7d'.utf8Size) behind)) = _ :=
    bracedType_of_balanced (List.forall_mem_singleton.2 rfl) rfl rfl
      (hinner ▸ TypeExpr.balanced_of_parse h hs)
  refine ⟨_, Excerpt.text_place (opened + width u + '\x7d'.utf8Size) behind, ?_⟩
  have hallows : Title.allowsType "param" = true := rfl
  have hlike : Title.isParameterLike "param" = true := rfl
  simp only [readType, hallows, hlike, if_true, hbody, hbraced, typeOfExcerpt_of_parse hinner h]
  rfl

/-! ## Parameters -/

/-- A parameter with a type and a name behind it, and no more, has no faults. -/
theorem general_of_scan (mode : Reading.Mode) (tag : Tag) {body rest : Excerpt} {name : TagName}
    (htype : readType "param" mode.range body = .ok (some n, rest))
    (hname : TagName.scan mode.sloppy true rest.text = (some name, [])) :
    Reading.general mode tag "param" body =
      .ok { tag := { tag with
        type := some (if name.bracketed then Reading.asOptional n else n)
        name := some (.ofList name.path)
        default := name.default.map .ofList
        description := none } } := by
  have hlike : Title.isParameterLike "param" = true := rfl
  have hallows : Title.allowsName "param" = true := rfl
  have hnamed : Reading.named mode "param" { tag with type := some n } rest.text =
      ({ tag := { tag with
        type := some (if name.bracketed then Reading.asOptional n else n)
        name := some (.ofList name.path)
        default := name.default.map .ofList } }, []) := by
    simp only [Reading.named, hallows, hlike, if_true, Bool.and_true, hname]
    cases name.bracketed <;> rfl
  rw [Reading.general, htype]
  simp only [bind, Except.bind, hnamed]
  rfl

/-- **A parameter** with a type and a name has them, and no faults. -/
theorem general_of_parse (mode : Reading.Mode) (hmode : mode.range = false)
    (hsloppy : mode.sloppy = false) (tag : Tag) (offset : Nat)
    (h : TypeExpr.parse .param {} t = .ok n) (hs : StringsBraceless t)
    (hu : u.filter (fun c => !isLineTerminator c) = t) :
    Reading.general mode tag "param"
        (Excerpt.place offset (" \x7b".toList ++ u ++ '\x7d' :: " x".toList)) =
      .ok { tag := { tag with
        type := some n
        name := some "x"
        default := none
        description := none } } := by
  obtain ⟨rest, hrest, htype⟩ := readType_of_parse offset " x".toList h hs hu
  have hname : TagName.scan mode.sloppy true rest.text = (some { path := "x".toList }, []) := by
    rw [hsloppy, hrest]
    rfl
  rw [← hmode] at htype
  exact general_of_scan mode tag htype hname

/-! ## Comments -/

/-- Every policy reads a block with a title. -/
theorem Policy.blocks_singleton {policy : Policy} {b : Block} (h : Block.startsTitle b.content) :
    policy.blocks [b] = [b] := by
  cases policy with
  | lenient => rw [blocks, List.filterMap_cons, Block.titled?_of_startsTitle h, List.filterMap_nil]
  | strict | collecting => rfl

/-- A block with a tag that has no faults is kept by every policy. -/
theorem Block.tag?_of_ofBody {options : Comment.ParseOptions} {b : Block} {tag : Tag}
    (htitle : b.title ≠ "")
    (h : Reading.ofBody options.mode (b.bareTag options) (b.title.map Char.toLower) b.body =
      .ok { tag }) : b.tag? options = .ok (some tag) := by
  rw [tag?, read_eq, h]
  exact Policy.judge_of_faults_eq_nil (by simp [Reading.faultIf, htitle])

namespace Comment

/-- A text that is one block gives one tag. -/
theorem parse_of_block {policy : Policy} {sloppy : Bool} {text : String} {cs : List Char}
    {b : Block} {tag : Tag} (htext : text.toList = '@' :: cs) (hcs : Unmarked false cs)
    (hb : b = ⟨0, Excerpt.place 0 ('@' :: cs)⟩) (htitle : Block.startsTitle b.content)
    (h : b.tag? { sloppy, policy } = .ok (some tag)) :
    parse { sloppy, policy } text = .ok ⟨"", [tag]⟩ := by
  have hsplit : splitBlocks true (Excerpt.place 0 text.toList) = ([], [b.content]) := by
    rw [htext, hb]
    exact splitBlocks_cons_of_unmarked rfl (by rwa [Excerpt.text_place])
  have hblocks : blocksOf (Excerpt.place 0 text.toList) = [b] := by
    rw [blocksOf, hsplit, hb]
    rfl
  rw [parse_eq, excerpt_of_not_unwrap rfl, hblocks, hsplit, Policy.blocks_singleton htitle,
    List.mapM_cons, h]
  rfl

/-- **Types that go on over lines.**  A parameter has the type that the text in its braces is by
    itself, with line terminators put in anywhere but before an `@`. -/
theorem parse_param_of_parse (policy : Policy) (h : TypeExpr.parse .param {} t = .ok n)
    (hs : StringsBraceless t) (hu : u.filter (fun c => !isLineTerminator c) = t)
    (hat : ∀ front nl blanks rest, u = front ++ nl :: (blanks ++ '@' :: rest) →
      isLineTerminator nl → ¬ ∀ c ∈ blanks, isBlank c) :
    parse { policy } ("@param \x7b" ++ .ofList u ++ "\x7d x") =
      .ok ⟨"", [{ title := "param", name := some "x", type := some n }]⟩ := by
  have hunmarked : Unmarked false u := by
    intro front rest hsplit
    cases hfresh : freshBehind false front with
    | false => rfl
    | true =>
      obtain ⟨before, nl, blanks, rfl, hnl, hblanks⟩ := exists_lineTerminator_of_freshBehind hfresh
      refine absurd (fun c hc => ?_) (hat before nl blanks rest (by simp [hsplit]) hnl)
      rw [isBlank, hblanks c hc, Bool.true_or]
  have htitle : Block.title ⟨0, Excerpt.place 0 ('@' :: ("param".toList ++
      (" \x7b".toList ++ u ++ '\x7d' :: " x".toList)))⟩ = "param" := by
    rw [Block.title, Excerpt.place, List.tail_cons, Excerpt.text_place]
    rfl
  have hbody := general_of_parse ({} : ParseOptions).mode rfl rfl { title := "param" }
    (width "@param".toList) h hs hu
  have htext : ("@param \x7b" ++ .ofList u ++ "\x7d x").toList = '@' :: ("param".toList ++
      (" \x7b".toList ++ u ++ '\x7d' :: " x".toList)) := by
    simp
  refine parse_of_block htext ?_ rfl rfl (Block.tag?_of_ofBody ?_ ?_)
  · refine .append (.of_not_mem (by decide)) (.append (.append (.of_not_mem (by decide)) ?_) ?_)
    · exact hunmarked
    · exact .of_not_mem (by decide)
  · rw [htitle]
    decide
  · have hlower : "param".map Char.toLower = "param" :=
      String.toList_inj.1 (by rw [String.toList_map]; decide)
    rw [Block.bareTag, htitle, hlower]
    exact hbody

/-- A union with a record, over three lines. -/
theorem parse_param_over_lines :
    parse { policy := .strict }
      ("@param \x7b" ++ .ofList "\x7ba:\n b\x7d|\rc".toList ++ "\x7d x") =
    .ok ⟨"", [{
      title := "param"
      name := some "x"
      type := some (.union [.record [.field "a" (some (.atom (.name "b") none)) none] none,
        .atom (.name "c") none] none) }]⟩ := by
  have hlexemes : (Tokens.ofText "\x7ba: b\x7d|c".toList).tokens.map Token.lexeme =
      [.openBrace, .name "a", .colon, .name "b", .closeBrace, .pipe, .name "c", .eof] := by
    decide +kernel
  have hstrings : StringsBraceless "\x7ba: b\x7d|c".toList := by
    intro t ht x hx
    have hmem := List.mem_map_of_mem (f := Token.lexeme) ht
    rw [hlexemes, hx] at hmem
    simp at hmem
  refine parse_param_of_parse .strict (t := "\x7ba: b\x7d|c".toList) (by decide +kernel) hstrings
    (by decide +kernel) fun front nl blanks rest h => ?_
  have hat : '@' ∉ "\x7ba:\n b\x7d|\rc".toList := by decide
  exact absurd (by simp [h]) hat

end Comment

end DocComment
