/-
  Katana.Script.Lsdas — the LSDAs of a dwarfscript.

  Call sites and actions are sections within the section of an LSDA, a type is a property; comments in front of them
  count them.

  Proved:
  - `readsItems_callSite` / `readsItems_action` / `readsItems_lsda`: a record is read if it is kept, and where it is
    read as the same.
-/
import Katana.Script.Frames
import Katana.Lsda.RoundTrip

namespace Katana.Script

open Lib

/-! ## Records -/

structure CallSiteKept (callSite : CallSiteRecord) : Prop where
  position : Short callSite.position
  length : Short callSite.length
  landingPadPosition : Short callSite.landingPadPosition
  firstAction : callSite.hasAction = true → callSite.firstAction.toNat < 2 ^ 31

structure ActionKept (action : ActionRecord) : Prop where
  typeFilterIndex : -1 ≤ action.typeFilterIndex.toInt
  nextAction : action.hasNextAction = true → action.nextAction.toNat < 2 ^ 31

structure LsdaKept (lsda : LSDA) : Prop where
  lpStart : Short lsda.lpStart
  ttEncoding : EncodingKept lsda.ttEncoding
  callSites : ∀ callSite ∈ lsda.callSiteTable, CallSiteKept callSite
  actions : ∀ action ∈ lsda.actionTable, ActionKept action
  types : ∀ entry ∈ lsda.typeTable, Short entry

def readCallSite (callSite : CallSiteRecord) : CallSiteRecord where
  position := readWord callSite.position
  length := readWord callSite.length
  landingPadPosition := readWord callSite.landingPadPosition
  firstAction := if callSite.hasAction then readSigned callSite.firstAction else 0
  hasAction := callSite.hasAction

def readAction (action : ActionRecord) : ActionRecord :=
  { action with nextAction := if action.hasNextAction then readSigned action.nextAction else 0 }

/-- The LSDA its section is read as. -/
def readLSDA (lsda : LSDA) : LSDA where
  lpStart := readWord lsda.lpStart
  callSiteTable := lsda.callSiteTable.map readCallSite
  actionTable := lsda.actionTable.map readAction
  ttEncoding := lsda.ttEncoding
  typeTable := lsda.typeTable.map readWord

structure SameLSDA (lsda read : LSDA) : Prop where
  lpStart : read.lpStart = lsda.lpStart
  ttEncoding : read.ttEncoding = lsda.ttEncoding
  callSites : List.Forall₂ SameCallSite lsda.callSiteTable read.callSiteTable
  actions : List.Forall₂ SameAction lsda.actionTable read.actionTable
  types : read.typeTable = lsda.typeTable

section Lsda
variable {P Q : Token → Prop} {callSite : CallSiteRecord} {action : ActionRecord} {lsda : LSDA} {idx : Nat}
  {cfi : CallFrameInfo} {t : Text}

theorem lexes_numbered {name : String} {more : Text} (hname : text name = pound :: more) (hmore : newline ∉ more)
    (idx : Nat) : Lexes (text name ++ (digits 10 idx ++ text "\n")) [] := by
  have hcomment : Lexes (pound :: (more ++ digits 10 idx ++ [newline])) [] := by
    refine lexes_comment fun hmem => ?_
    rcases List.mem_append.mp hmem with hmem | hmem
    · exact hmore hmem
    · exact absurd (isDigit_digits idx _ hmem) (by decide)
  rw [hname, List.cons_append, ← List.append_assoc]
  exact hcomment

/-! ## Call sites -/

theorem scanned_bool : ∀ b : Bool, ScannedAs (text (if b then "true" else "false")) [.boolLit b] := by
  decide +kernel

theorem reads_bool (b : Bool) : Reads P boolLit (text (if b then "true" else "false") ++ [newline]) True True b :=
  reads_word newlineEnds (scanned_bool b).2 (scanned_bool b).1 (yields_of fun _ _ => rfl)

def siteRead (callSite : CallSiteRecord) : CallSiteRecord := { readCallSite callSite with firstAction := 0 }

theorem readsItems_site :
    ReadsItems NotComma Q callSiteProperty
      (line "position: " (hexDigits callSite.position.toNat) ++ (line "length: " (hexDigits callSite.length.toNat) ++
        (line "landing_pad: " (hexDigits callSite.landingPadPosition.toNat) ++
          (line "has_action: " (text (if callSite.hasAction then "true" else "false")) ++
            if callSite.hasAction then line "first_action: " (signedDigits (signedWord callSite.firstAction)) else []))))
      (callSite.hasAction = true → 0 ≤ signedWord callSite.firstAction)
      (callSite.hasAction = true → 0 ≤ signedWord callSite.firstAction) zeroCallSite (readCallSite callSite) := by
  have hposition : ReadsItems NotComma Q callSiteProperty (line "position: " (hexDigits callSite.position.toNat)) _ _
      zeroCallSite { zeroCallSite with position := readWord callSite.position } :=
    readsItems_word .position (by simp [propertyNames]) rfl fun _ => rfl
  have hlength : ReadsItems NotComma Q callSiteProperty (line "length: " (hexDigits callSite.length.toNat)) _ _
      { zeroCallSite with position := readWord callSite.position }
      { zeroCallSite with position := readWord callSite.position, length := readWord callSite.length } :=
    readsItems_word .length (by simp [propertyNames]) rfl fun _ => rfl
  have hlandingPad : ReadsItems NotComma Q callSiteProperty
      (line "landing_pad: " (hexDigits callSite.landingPadPosition.toNat)) _ _
      { zeroCallSite with position := readWord callSite.position, length := readWord callSite.length }
      ⟨readWord callSite.position, readWord callSite.length, readWord callSite.landingPadPosition, 0, false⟩ :=
    readsItems_word .landingPad (by simp [propertyNames]) rfl fun _ => rfl
  have hhasAction : ReadsItems NotComma Q callSiteProperty
      (line "has_action: " (text (if callSite.hasAction then "true" else "false"))) _ _
      ⟨readWord callSite.position, readWord callSite.length, readWord callSite.landingPadPosition, 0, false⟩
      (siteRead callSite) :=
    readsItems_value .hasAction (by simp [propertyNames]) (reads_bool _) rfl fun _ => rfl
  have hfirstAction : ReadsItems NotComma Q callSiteProperty
      (if callSite.hasAction then line "first_action: " (signedDigits (signedWord callSite.firstAction)) else []) _ _
      (siteRead callSite)
      (if callSite.hasAction then { siteRead callSite with firstAction := readSigned callSite.firstAction }
        else siteRead callSite) :=
    readsItems_if fun _ => readsItems_signed .firstAction (by simp [propertyNames]) rfl fun _ => rfl
  have hread : (if callSite.hasAction then { siteRead callSite with firstAction := readSigned callSite.firstAction }
      else siteRead callSite) = readCallSite callSite := by
    obtain ⟨position, length, landingPadPosition, firstAction, hasAction⟩ := callSite
    cases hasAction <;> rfl
  rw [hread] at hfirstAction
  exact (hposition.append (hlength.append (hlandingPad.append (hhasAction.append hfirstAction)))).imp
    (fun hk => ⟨trivial, trivial, trivial, trivial, hk⟩) fun hc => hc.2.2.2.2

/-- **A call site.** -/
theorem readsItems_callSite :
    ReadsItems NotComma Q lsdaPart (printCallSite idx callSite) (CallSiteKept callSite)
      (SameCallSite callSite (readCallSite callSite) → CallSiteKept callSite) lsda
      { lsda with callSiteTable := lsda.callSiteTable ++ [readCallSite callSite] } := by
  have hsite : ReadsItems NotComma Anything callSiteProperty _ _ _ zeroCallSite (readCallSite callSite) := readsItems_site
  have hitem : ReadsItems NotComma Q lsdaPart _ _ _ lsda _ := readsItems_section "CALL_SITE\n" .callSite
    (by simp [sectionNames]) (by simp) rfl (fun _ => rfl)
    (hsite.closed (f := fun callSite => pure { lsda with callSiteTable := lsda.callSiteTable ++ [callSite] })
      "CALL_SITE\n" (by simp [sectionNames]) (yields_pure _) (by simp) trivial fun _ => rfl)
  have hcomment := lexes_numbered (show text "#call site " = pound :: text "call site " from rfl) (by decide +kernel) idx
  refine ((hitem.after hcomment).imp (fun hk => ?_) fun hc hsame => ?_).of_text
    (by simp only [printCallSite, List.append_assoc]; rfl)
  · exact ⟨fun hp => (readSigned_nonneg_iff.mpr (hk.firstAction hp)).1, trivial⟩
  · exact {
      position := readWord_iff.mp hsame.position
      length := readWord_iff.mp hsame.length
      landingPadPosition := readWord_iff.mp hsame.landingPadPosition
      firstAction := fun hp => readSigned_nonneg_iff.mp ⟨hc.1 hp, (if_pos hp).symm.trans (hsame.firstAction hp)⟩ }

theorem same_readCallSite (h : CallSiteKept callSite) : SameCallSite callSite (readCallSite callSite) where
  position := readWord_iff.mpr h.position
  length := readWord_iff.mpr h.length
  landingPadPosition := readWord_iff.mpr h.landingPadPosition
  hasAction := rfl
  firstAction hp := (if_pos hp).trans (readSigned_nonneg_iff.mpr (h.firstAction hp)).2

/-! ## Actions -/

theorem scanned_special :
    ScannedAs (text "match_all") [.keyword .matchAll] ∧ ScannedAs (text "none") [.keyword .none_] := by
  decide +kernel

/-- `type_idx`, which is -1 for any exception. -/
theorem reads_typeIdx (i : Int32) :
    Reads P typeIdx ((if i = -1 then text "match_all" else signedDigits i.toInt) ++ [newline]) (-1 ≤ i.toInt) (-1 ≤ i.toInt)
      i := by
  by_cases hall : i = -1
  · subst hall
    exact (reads_word newlineEnds scanned_special.1.2 scanned_special.1.1 (yields_of fun _ _ => rfl)).imp
      (fun _ => trivial) fun _ => by decide
  · have hne : i.toInt ≠ -1 := fun heq => hall (Int32.toInt_inj.mp heq)
    have hlit : Yields P typeIdx [.intLit (litOf i.toInt)] _ _ (intOf i.toInt) := yields_nonnegIntLit i.toInt
    rw [intOf_index] at hlit
    rw [if_neg hall]
    exact (reads_word newlineEnds (printed_signed _).plain (printed_signed _).scanned hlit).imp (by omega) (by omega)

theorem reads_nextAction (action : ActionRecord) :
    Reads P nextAction
      ((if action.hasNextAction then signedDigits (signedWord action.nextAction) else text "none") ++ [newline])
      (action.hasNextAction = true → 0 ≤ signedWord action.nextAction)
      (action.hasNextAction = true → 0 ≤ signedWord action.nextAction)
      (if action.hasNextAction then some (readSigned action.nextAction) else none) := by
  cases hnext : action.hasNextAction with
  | false =>
    exact (reads_word newlineEnds scanned_special.2.2 scanned_special.2.1 (yields_of fun _ _ => rfl)).imp
      (fun _ => trivial) fun _ hpresent => by cases hpresent
  | true =>
    have hlit : Yields P nextAction [.intLit (litOf (signedWord action.nextAction))] _ _
        (some (readSigned action.nextAction)) :=
      (yields_nonnegIntLit (signedWord action.nextAction)).bind (yields_pure (some (readSigned action.nextAction)))
        fun _ hrest => hrest
    exact (reads_word newlineEnds (printed_signed _).plain (printed_signed _).scanned hlit).imp
      (fun hk => ⟨hk rfl, trivial⟩) fun hc _ => hc.1

/-- **An action.** -/
theorem readsItems_action :
    ReadsItems NotComma Q lsdaPart (printAction idx action) (ActionKept action)
      (SameAction action (readAction action) → ActionKept action) lsda
      { lsda with actionTable := lsda.actionTable ++ [readAction action] } := by
  have htypeIdx : ReadsItems NotComma Anything actionProperty
      (line "type_idx: "
        (if action.typeFilterIndex = -1 then text "match_all" else signedDigits action.typeFilterIndex.toInt)) _ _
      ⟨none, none⟩ ⟨some action.typeFilterIndex, none⟩ :=
    readsItems_value .typeIdx (by simp [propertyNames]) (reads_typeIdx _) rfl fun _ => rfl
  have hnext : ReadsItems NotComma Anything actionProperty
      (line "next: " (if action.hasNextAction then signedDigits (signedWord action.nextAction) else text "none")) _ _
      ⟨some action.typeFilterIndex, none⟩
      ⟨some action.typeFilterIndex, some (if action.hasNextAction then some (readSigned action.nextAction) else none)⟩ :=
    readsItems_value .next (by simp [propertyNames]) (reads_nextAction _) rfl fun _ => rfl
  have hfinished : ActionParse.finished
      ⟨some action.typeFilterIndex, some (if action.hasNextAction then some (readSigned action.nextAction) else none)⟩ =
      .ok (readAction action) := by
    obtain ⟨typeFilterIndex, nextAction, hasNextAction⟩ := action
    cases hasNextAction <;> rfl
  let add (p : ActionParse) : Parse LSDA := do
    let action ← Run.fromExcept p.finished
    pure { lsda with actionTable := lsda.actionTable ++ [action] }
  have hadd : Yields NotComma (add ⟨some action.typeFilterIndex,
      some (if action.hasNextAction then some (readSigned action.nextAction) else none)⟩) [] True True
      { lsda with actionTable := lsda.actionTable ++ [readAction action] } :=
    yields_of fun rest _ => by
      dsimp only [add]
      rw [hfinished]
      rfl
  have hitem : ReadsItems NotComma Q lsdaPart _ _ _ lsda _ := readsItems_section "ACTION\n" .action
    (by simp [sectionNames]) (by simp) rfl (fun _ => rfl)
    ((htypeIdx.append hnext).closed (f := add) "ACTION\n" (by simp [sectionNames]) hadd (by simp) trivial fun _ => rfl)
  have hcomment := lexes_numbered (show text "#action " = pound :: text "action " from rfl) (by decide +kernel) idx
  refine ((hitem.after hcomment).imp (fun hk => ?_) fun hc hsame => ?_).of_text
    (by simp only [printAction, List.append_assoc]; rfl)
  · exact ⟨⟨hk.typeFilterIndex, fun hp => (readSigned_nonneg_iff.mpr (hk.nextAction hp)).1⟩, trivial⟩
  · exact {
      typeFilterIndex := hc.1.1
      nextAction := fun hp => readSigned_nonneg_iff.mp ⟨hc.1.2 hp, (if_pos hp).symm.trans (hsame.nextAction hp)⟩ }

theorem same_readAction (h : ActionKept action) : SameAction action (readAction action) where
  typeFilterIndex := rfl
  hasNextAction := rfl
  nextAction hp := (if_pos hp).trans (readSigned_nonneg_iff.mpr (h.nextAction hp)).2

/-! ## The section -/

/-- **A type.** -/
theorem readsItems_type (entry : UInt64) :
    ReadsItems NotComma Q lsdaPart (printTypeEntry idx entry) True True lsda
      { lsda with typeTable := lsda.typeTable ++ [readWord entry] } := by
  have hcomment := lexes_numbered (show text "#type entry " = pound :: text "type entry " from rfl) (by decide +kernel) idx
  have hentry : ReadsItems NotComma Q lsdaPart (line "typeinfo: " (hexDigits entry.toNat)) True True lsda
      { lsda with typeTable := lsda.typeTable ++ [readWord entry] } :=
    readsItems_word .typeinfo (by simp [propertyNames]) rfl fun _ => rfl
  refine (hentry.after hcomment).of_text ?_
  simp only [printTypeEntry, List.append_assoc]

/-- **An LSDA** is read if it is kept, and where it is read as the same. -/
theorem readsItems_lsda (h : printLSDA idx lsda = .ok t) :
    ReadsItems (· = .keyword .begin_) Q sectionItem t (LsdaKept lsda) (SameLSDA lsda (readLSDA lsda) → LsdaKept lsda) cfi
      { cfi with exceptTable := some (cfi.exceptTable.getD [] ++ [readLSDA lsda]) } := by
  obtain ⟨ttEncoding, hencoding, h⟩ := bind_eq_ok.mp h
  cases h
  have hlpStart : ReadsItems NotComma Anything lsdaPart (line "lpstart: " (hexDigits lsda.lpStart.toNat)) _ _ zeroLSDA
      { zeroLSDA with lpStart := readWord lsda.lpStart } :=
    readsItems_word .lpstart (by simp [propertyNames]) rfl fun _ => rfl
  have httEncoding : ReadsItems NotComma Anything lsdaPart (line "typeinfo_enc: " ttEncoding) _ _
      { zeroLSDA with lpStart := readWord lsda.lpStart } ⟨readWord lsda.lpStart, [], [], lsda.ttEncoding, []⟩ :=
    readsItems_encoding .typeinfoEnc (by simp [propertyNames]) hencoding rfl fun rest v hv => by rw [hv]; rfl
  have hcallSites : ReadsItems NotComma Anything lsdaPart (lsda.callSiteTable.mapIdx printCallSite).flatten _ _ _ _ :=
    readsItems_mapIdx printCallSite lsda.callSiteTable
      (fun done => ⟨readWord lsda.lpStart, done.map readCallSite, [], lsda.ttEncoding, []⟩) _ _ fun done callSite => by
        rw [List.map_append]
        exact readsItems_callSite
  have hactions : ReadsItems NotComma Anything lsdaPart (lsda.actionTable.mapIdx printAction).flatten _ _ _ _ :=
    readsItems_mapIdx printAction lsda.actionTable
      (fun done => ⟨readWord lsda.lpStart, lsda.callSiteTable.map readCallSite, done.map readAction, lsda.ttEncoding, []⟩)
      _ _ fun done action => by
        rw [List.map_append]
        exact readsItems_action
  have htypes : ReadsItems NotComma Anything lsdaPart (lsda.typeTable.mapIdx printTypeEntry).flatten _ _ _ _ :=
    readsItems_mapIdx printTypeEntry lsda.typeTable (fun done => { readLSDA lsda with typeTable := done.map readWord }) _ _
      fun done entry => by
        rw [List.map_append]
        exact readsItems_type entry
  have hparts := hlpStart.append (httEncoding.append (hcallSites.append (hactions.append htypes)))
  have hitem : ReadsItems (· = .keyword .begin_) Q sectionItem _ _ _ cfi _ := readsItems_section "LSDA\n" .lsda
    (by simp [sectionNames]) rfl rfl (fun _ => rfl)
    (hparts.closed (f := fun lsda => pure { cfi with exceptTable := some (cfi.exceptTable.getD [] ++ [lsda]) })
      "LSDA\n" (by simp [sectionNames]) (yields_pure _) (by simp) trivial fun _ => rfl)
  have hcomment := lexes_numbered (show text "#LSDA " = pound :: text "LSDA " from rfl) (by decide +kernel) idx
  refine ((hitem.after hcomment).imp (fun hk => ?_) fun hc hsame => ?_).of_text (by simp only [List.append_assoc]; rfl)
  · exact ⟨⟨trivial, trivial, hk.callSites, hk.actions, fun _ _ => trivial⟩, trivial⟩
  · obtain ⟨⟨-, -, hsites, hacts, -⟩, -⟩ := hc
    have hsameSites := List.forall₂_same.mp (List.forall₂_map_right_iff.mp hsame.callSites)
    have hsameActs := List.forall₂_same.mp (List.forall₂_map_right_iff.mp hsame.actions)
    have hsameTypes : lsda.typeTable.map readWord = lsda.typeTable.map id := by
      rw [List.map_id]
      exact hsame.types
    exact {
      lpStart := readWord_iff.mp hsame.lpStart
      ttEncoding := encodingKept_iff.mpr ⟨_, hencoding⟩
      callSites := fun callSite hmem => hsites callSite hmem (hsameSites callSite hmem)
      actions := fun action hmem => hacts action hmem (hsameActs action hmem)
      types := fun entry hmem => readWord_iff.mp (List.map_inj_left.mp hsameTypes entry hmem) }

theorem printLSDA_ok (h : LsdaKept lsda) : ∃ t, printLSDA idx lsda = .ok t := by
  obtain ⟨ttEncoding, hencoding⟩ := encodingKept_iff.mp h.ttEncoding
  exact ⟨_, by simp only [printLSDA, hencoding, bind_ok]; rfl⟩

theorem same_readLSDA (h : LsdaKept lsda) : SameLSDA lsda (readLSDA lsda) where
  lpStart := readWord_iff.mpr h.lpStart
  ttEncoding := rfl
  callSites := List.forall₂_map_right_iff.mpr
    (List.forall₂_same.mpr fun callSite hmem => same_readCallSite (h.callSites callSite hmem))
  actions := List.forall₂_map_right_iff.mpr
    (List.forall₂_same.mpr fun action hmem => same_readAction (h.actions action hmem))
  types := by
    have hread : lsda.typeTable.map readWord = lsda.typeTable.map id :=
      List.map_inj_left.mpr fun entry hmem => readWord_iff.mpr (h.types entry hmem)
    rw [List.map_id] at hread
    exact hread

end Lsda

end Katana.Script
