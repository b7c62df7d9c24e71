import PS2Bios.Library.Reading
import PS2Bios.Loadcore.CommandLine

/-!
# The first argument of a module

Whatever the argument bytes are, `buildArguments` stores inside its two arrays, and the first string
of the vector is the name, of which 255 characters are kept.
-/

namespace PS2Bios.Loadcore.CommandLine

open Bytes Buffer

variable {args : ℕ → UInt8} {b copy done nameBytes : List UInt8} {argv : List (Option ℕ)}

/-- The argument bytes go behind the name and leave it. -/
theorem copyArguments_keeps {l : List UInt8} {left k used : ℕ} (args : ℕ → UInt8) (hb : l <+: b)
    (hl : l.length ≤ used) (hroom : used + left ≤ b.length) :
    ∃ b', copyArguments args left k used b = some b' ∧ b'.length = b.length ∧ l <+: b' := by
  have hused : (b.take used).length = used := List.length_take_of_le (by omega)
  obtain ⟨b', hb', hlen, hbegins⟩ := copyArguments_eq (at_readBytes args k left)
    (List.take_prefix used b) (by rw [hused, length_readBytes]; exact hroom)
  rw [hused, length_readBytes] at hb'
  have htake : l <+: b.take used := by
    rw [List.prefix_take_iff]
    exact ⟨hb, hl⟩
  exact ⟨b', hb', hlen, (htake.trans (List.prefix_append _ _)).trans hbegins⟩

/-- The scan for tokens leaves the first pointer, and room for the last. -/
theorem scanTokens_keeps (left : ℕ) {k argc : ℕ} (token : Bool) (hroom : k + left ≤ copy.length)
    (hargc : 0 < argc) (hmax : argc < kArgvMax) (hlen : argv.length = kArgvMax)
    (hfirst : [some 0] <+: argv) :
    ∃ argc' argv', scanTokens copy left k token argc argv = some (argc', argv') ∧ 0 < argc' ∧
      argc' < kArgvMax ∧ argv'.length = kArgvMax ∧ [some 0] <+: argv' := by
  induction left generalizing k token argc argv with
  | zero => exact ⟨argc, argv, rfl, hargc, hmax, hlen, hfirst⟩
  | succ left ih =>
    by_cases hgo : argc < kArgvMax - 1
    · obtain ⟨c, hc⟩ : ∃ c, copy[k]? = some c :=
        ⟨_, List.getElem?_eq_getElem (show k < copy.length by omega)⟩
      have hroom' : k + 1 + left ≤ copy.length := by omega
      rw [scanTokens, if_pos hgo, hc, Option.bind_eq_bind, Option.bind_some]
      by_cases hstart : (!token) = true ∧ c ≠ 0
      · obtain ⟨argv₁, hstore, hlen₁, hfirst₁⟩ := store_behind hfirst
          (show [some 0].length ≤ argc from hargc) (by omega) (some k)
        rw [if_pos hstart, hstore, Option.bind_eq_bind, Option.bind_some]
        exact ih true hroom' (Nat.succ_pos argc) (by omega) (hlen₁.trans hlen) hfirst₁
      · rw [if_neg hstart]
        split
        · exact ih false hroom' hargc hmax hlen hfirst
        · exact ih token hroom' hargc hmax hlen hfirst
    · rw [scanTokens, if_neg hgo]
      exact ⟨argc, argv, rfl, hargc, hmax, hlen, hfirst⟩

/-- What is added behind the name leaves it. -/
theorem addArguments_keeps {used : ℕ} (arglen : ℕ) (args : Option (List UInt8))
    (hname : done <+: copy) (hend : done.getLast? = some 0) (hused : done.length = used)
    (hmax : used ≤ kArgBytesMax) (hcopy : copy.length = kArgBytesMax)
    (hargv : argv.length = kArgvMax) (hfirst : [some 0] <+: argv) :
    ∃ a, addArguments used arglen args copy argv = some a ∧ 0 < a.argc ∧ a.argc < kArgvMax ∧
      a.argv.length = kArgvMax ∧ [some 0] <+: a.argv ∧ done <+: a.copy := by
  have hnone : ∃ a : Arguments, some (⟨1, argv, copy⟩ : Arguments) = some a ∧ 0 < a.argc ∧
      a.argc < kArgvMax ∧ a.argv.length = kArgvMax ∧ [some 0] <+: a.argv ∧ done <+: a.copy :=
    ⟨_, rfl, Nat.one_pos, (by decide : 1 < kArgvMax), hargv, hfirst, hname⟩
  cases args with
  | none => exact hnone
  | some args =>
    by_cases hpos : 0 < arglen
    · rw [addArguments, if_pos hpos]
      -- the bytes that go into the copy
      generalize hleft : (if kArgBytesMax - used < arglen then kArgBytesMax - used else arglen) =
        left
      have hroom : used + left ≤ copy.length := by
        rw [← hleft, hcopy]
        split <;> omega
      have hzero : left = 0 → used = kArgBytesMax := by
        rw [← hleft]
        split <;> omega
      obtain ⟨copy₁, hcopied, hlen₁, hname₁⟩ := copyArguments_keeps (k := 0) (read args 0) hname
        hused.le hroom
      -- the last of them is made an end; with no room for any it is the name's own
      obtain ⟨copy₂, hstore, hlen₂, hname₂⟩ : ∃ copy₂,
          store copy₁ (used + left - 1) 0 = some copy₂ ∧ copy₂.length = copy₁.length ∧
            done <+: copy₂ := by
        rcases Nat.eq_zero_or_pos left with rfl | hleftpos
        · obtain ⟨init, hinit⟩ : ∃ init, done = init ++ [0] :=
            ⟨done.dropLast, (List.dropLast_append_getLast? 0 hend).symm⟩
          subst hinit
          have hlast : used + 0 - 1 = init.length := by
            rw [← hused, List.length_append, List.length_singleton]
            omega
          rw [hlast]
          exact ⟨copy₁, store_self hname₁, rfl, hname₁⟩
        · exact store_behind hname₁ (by omega) (by omega) 0
      obtain ⟨argc, argv', hscan, hargc⟩ := scanTokens_keeps left false
        (show used + left ≤ copy₂.length by omega) Nat.one_pos (by decide) hargv hfirst
      refine ⟨⟨argc, argv', copy₂⟩, ?_, hargc.1, hargc.2.1, hargc.2.2.1, hargc.2.2.2, hname₂⟩
      dsimp only
      rw [hcopied, Option.bind_eq_bind, Option.bind_some, hstore, Option.bind_some, hscan]
      rfl
    · rw [addArguments, if_neg hpos]
      exact hnone

/-- What `buildArguments` has done once the name, with its end, is in the copy. -/
theorem buildArguments_of_copied {name : ℕ → UInt8} (arglen : ℕ) (args : Option (List UInt8))
    {fin : ℕ} {copied : List UInt8} (hcopied : copyString kArgBytesMax name kArgBytesMax 0 copy =
      some (fin, copied)) (hdone : done ++ [0] <+: copied) (hfin : fin = done.length)
    (hmax : fin < kArgBytesMax) (hlen : copied.length = kArgBytesMax)
    (hargv : argv.length = kArgvMax) :
    ∃ a, buildArguments name arglen args copy argv = some a ∧ [some 0] <+: a.argv ∧
      done ++ [0] <+: a.copy := by
  obtain ⟨argv₁, hargv₁, hlen₁, hfirst₁⟩ := store_next (l := []) (b := argv) List.nil_prefix
    (by rw [hargv]; decide) (some 0)
  have hlength : (done ++ [0]).length = fin + 1 := by
    rw [List.length_append, List.length_singleton, hfin]
  obtain ⟨a, hadded, hargc, hargcMax, hlen₂, hfirst₂, hname₂⟩ := addArguments_keeps
    arglen args hdone List.getLast?_concat hlength hmax hlen (hlen₁.trans hargv)
    hfirst₁
  obtain ⟨argv₂, hargv₂, -, hfirst₃⟩ := store_behind hfirst₂
    (show [some 0].length ≤ a.argc from hargc) (by omega) none
  refine ⟨{ a with argv := argv₂ }, ?_, hfirst₃, hname₂⟩
  change store argv 0 (some 0) = _ at hargv₁
  unfold buildArguments
  rw [hargv₁, Option.bind_eq_bind, Option.bind_some, hcopied, Option.bind_eq_bind,
    Option.bind_some]
  dsimp only
  rw [hadded, Option.bind_eq_bind, Option.bind_some, hargv₂]
  rfl

/-- The vector of a name and any argument bytes. -/
theorem buildArguments_first {name : ℕ → UInt8} (arglen : ℕ) (args : Option (List UInt8))
    (hname : At name 0 (nameBytes ++ [0])) (hzero : 0 ∉ nameBytes)
    (hcopy : copy.length = kArgBytesMax) (hargv : argv.length = kArgvMax) :
    ∃ arguments, buildArguments name arglen args copy argv = some arguments ∧
      arguments.strings.head? = some (some (nameBytes.take (kArgBytesMax - 1))) := by
  obtain ⟨copied, hcopied, hlen, hdone⟩ := copyString_start kArgBytesMax (b := copy)
    hname hzero (by decide) (by rw [hcopy])
  have hmax : (nameBytes.take (kArgBytesMax - 1)).length < kArgBytesMax := by
    have := List.length_take_le (kArgBytesMax - 1) nameBytes
    unfold kArgBytesMax at *
    omega
  obtain ⟨a, hbuild, hfirst, hstring⟩ := buildArguments_of_copied arglen args hcopied hdone rfl
    hmax (hlen.trans hcopy) hargv
  refine ⟨a, hbuild, ?_⟩
  have hstring' : stringAt a.copy 0 = nameBytes.take (kArgBytesMax - 1) :=
    stringAt_eq (l := []) (r := []) hstring fun hmem => hzero (List.mem_of_mem_take hmem)
  obtain ⟨r, hr⟩ := hfirst
  rw [Arguments.strings, ← hr, List.singleton_append, List.take_succ_cons, List.map_cons,
    List.head?_cons, Option.map_some, hstring']

/-- A name that does not end is cut, so the copy always does. -/
theorem copyString_ends (max turns : ℕ) (source : ℕ → UInt8) {k : ℕ} (hk : k < max)
    (hmax : max ≤ b.length) (hturns : max - k ≤ turns) :
    ∃ fin b', copyString max source turns k b = some (fin, b') ∧ fin < max ∧
      b'.length = b.length ∧ b'[fin]? = some 0 := by
  induction turns generalizing k b with
  | zero => omega
  | succ turns ih =>
    rw [copyString]
    split
    next hgo =>
      rw [store, if_pos (hk.trans_le hmax), Option.bind_some]
      obtain ⟨fin, b', hcopied, hfin, hlen, hend⟩ := ih (b := b.set k (source k)) hgo.1
        (by rwa [List.length_set]) (by omega)
      exact ⟨fin, b', hcopied, hfin, hlen.trans List.length_set, hend⟩
    next =>
      rw [store, if_pos (hk.trans_le hmax), Option.map_some]
      refine ⟨k, b.set k 0, rfl, hk, List.length_set, ?_⟩
      exact List.getElem?_set_self (hk.trans_le hmax)

/-- There always is a vector. -/
theorem exists_buildArguments (name : ℕ → UInt8) (arglen : ℕ) (args : Option (List UInt8))
    (hcopy : copy.length = kArgBytesMax) (hargv : argv.length = kArgvMax) :
    ∃ arguments, buildArguments name arglen args copy argv = some arguments := by
  obtain ⟨fin, copied, hcopied, hfin, hlen, hend⟩ := copyString_ends kArgBytesMax
    kArgBytesMax name (b := copy) (k := 0) (by decide) hcopy.ge (Nat.sub_le _ _)
  have hdone : copied.take fin ++ [0] = copied.take (fin + 1) := by
    rw [List.take_add_one, hend, Option.toList_some]
  have hcopies : copied.take fin ++ [0] <+: copied := hdone ▸ List.take_prefix _ _
  have hfin' : fin = (copied.take fin).length := by
    rw [List.length_take_of_le (by omega)]
  obtain ⟨a, hbuild, -⟩ := buildArguments_of_copied arglen args hcopied hcopies hfin' hfin
    (hlen.trans hcopy) hargv
  exact ⟨a, hbuild⟩

end PS2Bios.Loadcore.CommandLine
