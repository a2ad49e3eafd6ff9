import ManagedHeap.Proofs.Sinks
import Mathlib

/-!
# Lines of a journal file

**Input.**  Events with any strings in them.

**Algorithm.**  What an event's text adds to its strings, numbers and fixed words, has no control
characters.  A document quotes the strings, and a quoted string has none either.

**Results.**  `Journal.keepsLines_after`: documents are one line each; a text has one line more than
its strings have line ends, so it is one line exactly if they have none.
`Journal.message_breaks_line`: a message that has one.
-/

namespace ManagedHeap

def Clean (s : String) : Prop := ∀ c ∈ s.toList, 32 ≤ c.toNat

instance : DecidablePred Clean := fun s => List.decidableBAll (32 ≤ Char.toNat ·) s.toList

namespace Clean

theorem append (hs : Clean s) (ht : Clean t) : Clean (s ++ t) := by
  intro c hc
  rw [String.toList_append, List.mem_append] at hc
  exact hc.elim (hs c) (ht c)

theorem ofList (h : ∀ c ∈ cs, 32 ≤ c.toNat) : Clean (String.ofList cs) := by
  rwa [Clean, String.toList_ofList]

theorem take {cs : List Char} (h : ∀ c ∈ cs, 32 ≤ c.toNat) (n : Nat) :
    Clean (String.ofList (cs.take n)) :=
  ofList fun c hc => h c (List.mem_of_mem_take hc)

theorem drop {cs : List Char} (h : ∀ c ∈ cs, 32 ≤ c.toNat) (n : Nat) :
    Clean (String.ofList (cs.drop n)) :=
  ofList fun c hc => h c (List.mem_of_mem_drop hc)

theorem ite [Decidable p] (hs : Clean s) (ht : Clean t) : Clean (if p then s else t) := by
  split
  · exact hs
  · exact ht

theorem intercalate (hs : Clean separator) (h : ∀ t ∈ ts, Clean t) :
    Clean (separator.intercalate ts) := by
  induction ts with
  | nil => exact (by decide : Clean "")
  | cons t ts ih =>
    cases ts with
    | nil => exact h t List.mem_cons_self
    | cons u us =>
      rw [String.intercalate_cons_cons]
      exact ((h t List.mem_cons_self).append hs).append (ih fun v hv =>
        h v (List.mem_cons_of_mem _ hv))

theorem natural (n : Nat) : Clean (toString n) := by
  intro c hc
  have hdigit := Nat.isDigit_of_mem_toDigits (by omega) (by omega) (Nat.toList_repr ▸ hc)
  simp only [Char.isDigit, ge_iff_le, UInt32.le_iff_toNat_le, Bool.and_eq_true,
    decide_eq_true_eq] at hdigit
  exact Nat.le_trans (by decide) hdigit.1

theorem zeros (n : Nat) : Clean (Numeral.zeros n) :=
  ofList fun c hc => by rw [List.eq_of_mem_replicate hc]; decide

theorem count_eq_zero (h : Clean s) (hc : c.toNat < 32) : s.toList.count c = 0 :=
  List.count_eq_zero.mpr fun hmem => Nat.not_lt.mpr (h c hmem) hc

end Clean

namespace Numeral

theorem clean_positional (d : Decimal) : Clean d.positional := by
  have hd := Clean.natural d.digits
  unfold Decimal.positional
  exact .ite ((hd.append (.zeros _)).append (by decide))
    (.ite (((Clean.take hd _).append (by decide)).append (.drop hd _))
    (.append (.append (by decide) (.zeros _)) hd))

theorem clean_scientific (d : Decimal) : Clean d.scientific := by
  have hd := Clean.natural d.digits
  unfold Decimal.scientific
  refine ((((Clean.take hd _).append ?_).append (by decide)).append (.ite (by decide)
      (by decide))).append (.natural _)
  split
  · decide
  · next hrest => exact .append (by decide) (Clean.drop hd _)

theorem clean_write (f : Format) (v : Value) : Clean (Layout.document.write f v) := by
  cases v with
  | nan | infinite => exact (by decide : Clean "null")
  | finite negative m e =>
    have hsign : Clean (if negative then "-" else "") := .ite (by decide) (by decide)
    exact .ite (hsign.append (by decide))
      (hsign.append (.ite (clean_positional _) (clean_scientific _)))

theorem clean_fixed (places : Nat) (v : Value) : Clean (fixed places v) := by
  cases v with
  | nan => exact (by decide : Clean "NaN")
  | infinite => exact .ite (by decide) (by decide)
  | finite negative m e =>
    have hpadded : ∀ k n, Clean (zeros k ++ toString (n : Nat)) :=
      fun k n => (Clean.zeros k).append (.natural n)
    exact (Clean.append (.ite (by decide) (by decide)) (Clean.take (hpadded _ _) _)).append
      (.ite (by decide) (.append (by decide) (Clean.drop (hpadded _ _) _)))

end Numeral

theorem Text.clean_quote (s : String) : Clean (quote s) := by
  have hdigits : ∀ n < 32, (Nat.toDigits 16 n).all (32 ≤ Char.toNat ·) = true := by decide
  have hchar : ∀ c, Clean (quoteChar c) := by
    intro c
    unfold quoteChar
    refine .ite (by decide) <| .ite (by decide) <| .ite (by decide) <| .ite (by decide) <|
      .ite (by decide) <| .ite (by decide) <| .ite (by decide) ?_
    split
    · next hc =>
        exact .append (.append (by decide) (.zeros _)) (.ofList (by simpa using hdigits _ hc))
    · next hc =>
      intro d hd
      obtain rfl : d = c := by simpa using hd
      omega
  refine .append (.append (by decide) ?_) (by decide)
  intro c hc
  rw [String.toList_join, List.mem_flatMap] at hc
  obtain ⟨t, ht, hc⟩ := hc
  obtain ⟨d, -, rfl⟩ := List.mem_map.mp ht
  exact hchar d c hc

namespace Event

/-- The strings in an event, which may be any text. -/
def strings : Event → List String
  | .cycleStart _ reason => [reason]
  | .finalizerPanicked object message => [object, message]
  | .threadSuspended thread _ => [thread]
  | .threadResumed thread _ => [thread]
  | _ => []

/-- Number of places of a character in the strings of an event. -/
def occurrences (e : Event) (c : Char) : Nat := (e.strings.map (·.toList.count c)).sum

/-- **The control characters of a text are those of its strings.** -/
theorem count_describe (e : Event) (hc : c.toNat < 32) :
    e.describe.toList.count c = e.occurrences c := by
  have hnat : ∀ n : Nat, (toString n).toList.count c = 0 :=
    fun n => (Clean.natural n).count_eq_zero hc
  have hfixed : ∀ n v, (toString (Numeral.fixed n v)).toList.count c = 0 := fun n v =>
    (Numeral.clean_fixed n v).count_eq_zero hc
  have hword : ∀ s : String, Clean s → (toString s).toList.count c = 0 :=
    fun s h => h.count_eq_zero hc
  delta describe
  cases e <;> simp (disch := decide) only [String.toList_append, List.count_append, hnat, hfixed,
    hword, percent, occurrences, strings, List.map_cons, List.map_nil, List.sum_cons, List.sum_nil,
    Nat.add_zero, Nat.zero_add] <;> rfl

theorem clean_toJson (e : Event) : Clean e.toJson := by
  have hnat : ∀ key n, Clean (natMember key n) := fun key n =>
    ((Text.clean_quote key).append (by decide)).append (.natural n)
  have htext : ∀ key s, Clean (textMember key s) := fun key s =>
    ((Text.clean_quote key).append (by decide)).append (Text.clean_quote s)
  have hreal : ∀ key v, Clean (realMember key v) := fun key v =>
    ((Text.clean_quote key).append (by decide)).append (Numeral.clean_write _ v)
  have hmembers : ∀ t ∈ e.members, Clean t := by
    cases e <;> simp [members, hnat, htext, hreal]
  exact .append (.append (by decide) (.intercalate (by decide) hmembers)) (by decide)

end Event

namespace Journal

variable {j : Journal}

theorem count_lineOf (x : Entry) :
    (j.lineOf x).toList.count '\n' = if j.config.json then 0 else x.event.occurrences '\n' := by
  have hstamp : Clean (if j.config.timestamps then x.stamp.text else "") :=
    .ite (fun c hc => of_decide_eq_true (List.all_eq_true.mp x.stamp.printable c hc)) (by decide)
  rw [lineOf, line, String.toList_append, List.count_append, hstamp.count_eq_zero (by decide),
    Nat.zero_add]
  split
  · exact x.event.clean_toJson.count_eq_zero (by decide)
  · exact x.event.count_describe (by decide)

theorem toList_lines (xs : List Entry) :
    (j.lines xs).toList = ((xs.map fun x => (j.lineOf x).toList).map (· ++ ['\n'])).flatten := by
  simp [lines, List.flatMap, Function.comp_def]

theorem splitOn_flatten (h : ∀ t ∈ texts, '\n' ∉ t) :
    (texts.map (· ++ ['\n'])).flatten.splitOn '\n' = texts ++ [[]] := by
  have hjoin : (texts.map (· ++ ['\n'])).flatten = ['\n'].intercalate (texts ++ [[]]) := by
    clear h
    induction texts with
    | nil => rfl
    | cons t texts ih =>
      obtain ⟨u, us, hu⟩ := List.exists_cons_of_ne_nil (List.append_ne_nil_of_right_ne_nil texts
            (List.cons_ne_nil [] []))
      rw [List.map_cons, List.flatten_cons, ih, List.cons_append, hu, List.intercalate_cons_cons]
  rw [hjoin]
  refine List.splitOn_intercalate _ ?_ (by simp)
  simpa [or_imp, forall_and] using h

theorem snd_of_mem_trials (h : Use.turn false ∉ uses) (hp : p ∈ trials limit on true uses) :
    p.2 = true := by
  induction uses generalizing on with
  | nil => cases hp
  | cons u uses ih =>
    obtain ⟨hu, huses⟩ := not_or.mp (mt List.mem_cons.mpr h)
    have hok : u.ok true = true := by
      cases u with
      | turn writes => cases writes <;> simp_all [Use.ok]
      | _ => rfl
    rw [trials, hok] at hp
    rcases List.mem_append.mp hp with hp | hp
    · cases u <;> simp only [Use.trial] at hp
      case log e =>
        split at hp
        · rw [List.mem_singleton.mp hp]
        · cases hp
      all_goals cases hp
    · exact ih huses hp

/-- What a journal file has gained, and in which lines. -/
structure KeepsLines (config : JournalConfig) (disk : Disk) (uses : List Use) (text : String) :
    Prop where
  content : (after config disk uses).1.disk.content = disk.content ++ text
  /-- While every write succeeds all accepted events are written. -/
  complete : config.file.isSome = true → disk.opens = true → disk.writes = true →
    Use.turn false ∉ uses → written config disk uses = accepted config.level uses
  /-- An event brings its own line end and, as a text, those of its strings. -/
  ends : text.toList.count '\n' = ((written config disk uses).map fun x => 1 + if config.json then 0
      else x.event.occurrences '\n').sum
  /-- The lines are the events. -/
  lines : (config.json = true ∨ ∀ x ∈ written config disk uses,
      ∀ s ∈ x.event.strings, '\n' ∉ s.toList) → text.toList.splitOn '\n' =
      ((written config disk uses).map fun x => ((start config disk).1.lineOf x).toList) ++ [[]]

/-- **Control characters come only from the strings of a text, and a document has none; so a file
has one line for each event as long as it holds documents, or texts whose strings have no line
end.** -/
theorem keepsLines_after (config : JournalConfig) (disk : Disk) (uses : List Use) :
    (∀ (e : Event) (c : Char), c.toNat < 32 → e.describe.toList.count c = e.occurrences c ∧
      c ∉ e.toJson.toList) ∧ ∃ text, KeepsLines config disk uses text := by
  refine ⟨fun e c hc => ⟨e.count_describe hc, fun h => Nat.not_lt.mpr (e.clean_toJson c h) hc⟩, ?_⟩
  refine ⟨_, content_after config disk uses, ?_, ?_, ?_⟩
  · intro hfile hopens hwrites hturn
    have htrials : (trials config.level true true uses).takeWhile Prod.snd =
        trials config.level true true uses :=
      List.takeWhile_eq_self_iff.mpr fun p hp => snd_of_mem_trials hturn hp
    rw [written, hfile, hopens, hwrites, htrials]
    rfl
  · rw [toList_lines, List.count_flatten, List.map_map, List.map_map]
    congr 1
    refine List.map_congr_left fun x _ => ?_
    rw [Function.comp_apply, Function.comp_apply, List.count_append, count_lineOf, Nat.add_comm]
    rfl
  · intro hclean
    rw [toList_lines, splitOn_flatten]
    intro t ht
    obtain ⟨x, hx, rfl⟩ := List.mem_map.mp ht
    rw [← List.count_eq_zero, count_lineOf]
    rcases hclean with hjson | hstrings
    · exact if_pos hjson
    · have hnone : x.event.occurrences '\n' = 0 := List.sum_eq_zero fun n hn => by
        obtain ⟨s, hs, rfl⟩ := List.mem_map.mp hn
        exact List.count_eq_zero.mpr (hstrings x hx s hs)
      rw [hnone]
      exact ite_self 0

theorem message_breaks_line : '\n' ∈ (Event.finalizerPanicked "obj#0.1" "a\nb").describe.toList ∧
    ((after { file := some "journal", timestamps := false } (.holding "") [.log ⟨.hidden,
      .finalizerPanicked "obj#0.1" "a\nb"⟩]).1.disk.content.toList.splitOn '\n').length = 3 := by
  decide

end Journal

end ManagedHeap
