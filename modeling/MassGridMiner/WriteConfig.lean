import MassGridMiner.Api.Readable
import MassGridMiner.Lib.Utf8

/-!
# The pools of a configuration file

`write_config` prints an object for each pool that is not failover-only, with a comma in front
if the number of the pool is not zero.  Strings are escaped by a backslash in front of quotes and
backslashes, but for the name of a goal, which is printed as it is.

## Main definitions

* `ConfigPool`, `writeConfigPools` — a pool, and the text that is written of all of them.
* `poolTree` — the object that is meant.
* `WritesPools`, `PoolsWritable` — the array is read as it is meant, and when it is.
-/

namespace MassGridMiner

open JsonText

/-! ## The text -/

/-- What is written of a pool. -/
structure ConfigPool where
  rpcUrl : CStr
  rpcUser : CStr
  rpcPass : CStr
  rpcProxy : Option CStr
  goalName : CStr
  quota : ℤ
  prio : ℤ
  forceRollntime : ℤ
  failoverOnly : Bool

/-- `json_escape`. -/
def jsonEscape (str : CStr) : List UInt8 :=
  str.bytes.flatMap fun c => if c = 0x5c ∨ c = 0x22 then [0x5c, c] else [c]

/-- The body of the loop of `write_config` over the pools. -/
def writeConfigPool (i : ℕ) (pool : ConfigPool) : List UInt8 :=
  if pool.failoverOnly then []
  else
    (if 0 < i then literal "," else []) ++
    (if pool.quota ≠ 1 then
      literal "\n\t\x7b\n\t\t\"quota\" : \"" ++ printInt pool.quota ++ literal ";" ++
        jsonEscape pool.rpcUrl ++ literal "\","
    else literal "\n\t\x7b\n\t\t\"url\" : \"" ++ jsonEscape pool.rpcUrl ++ literal "\",") ++
    (match pool.rpcProxy with
    | some proxy => literal "\n\t\t\"pool-proxy\" : \"" ++ jsonEscape proxy ++ literal "\","
    | none => []) ++
    (literal "\n\t\t\"user\" : \"" ++ jsonEscape pool.rpcUser ++ literal "\",") ++
    (literal "\n\t\t\"pass\" : \"" ++ jsonEscape pool.rpcPass ++ literal "\",") ++
    (if pool.goalName.bytes ≠ literal "default" then
      literal "\n\t\t\"pool-goal\" : \"" ++ pool.goalName.bytes ++ literal "\","
    else []) ++
    (literal "\n\t\t\"pool-priority\" : \"" ++ printInt pool.prio ++ literal "\"") ++
    (if pool.forceRollntime ≠ 0 then
      literal ",\n\t\t\"force-rollntime\" : " ++ printInt pool.forceRollntime
    else []) ++
    literal "\n\t\x7d"

/-- The loop of `write_config` over the pools. -/
def writeConfigLoop : ℕ → List ConfigPool → List UInt8
  | _, [] => []
  | i, pool :: pools => writeConfigPool i pool ++ writeConfigLoop (i + 1) pools

/-- What `write_config` prints up to the end of the array. -/
def writeConfigPools (pools : List ConfigPool) : List UInt8 :=
  literal "\x7b\n\"pools\" : [" ++ writeConfigLoop 0 pools ++ literal "\n]\n"

/-! ## What is meant -/

/-- A value of a pool, by how it is written. -/
inductive ConfigValue
  | quotaUrl (quota : ℤ) (url : CStr)
  | escape (s : CStr)
  | raw (s : CStr)
  | quoted (n : ℤ)
  | int (n : ℤ)

namespace ConfigValue

/-- The string or number that is meant. -/
def meant : ConfigValue → List UInt8
  | quotaUrl quota url => printInt quota ++ 0x3b :: url.bytes
  | escape s | raw s => s.bytes
  | quoted n | int n => printInt n

def tree : ConfigValue → Tree
  | int n => .number (printInt n)
  | v => .string v.meant

/-- The text that is written. -/
def text : ConfigValue → List UInt8
  | quotaUrl quota url => 0x22 :: (printInt quota ++ 0x3b :: jsonEscape url ++ [0x22])
  | escape s => 0x22 :: (jsonEscape s ++ [0x22])
  | raw s => 0x22 :: (s.bytes ++ [0x22])
  | quoted n => 0x22 :: (printInt n ++ [0x22])
  | int n => printInt n

/-- A value that is read as it is meant. -/
def Readable : ConfigValue → Prop
  | quotaUrl _ s | escape s => Printable s.bytes
  | raw s => ∀ c ∈ s.bytes, Plain c
  | _ => True

end ConfigValue

/-- The members of a pool. -/
def ConfigPool.members (pool : ConfigPool) : List (String × ConfigValue) :=
  (if pool.quota ≠ 1 then ("quota", .quotaUrl pool.quota pool.rpcUrl)
    else ("url", .escape pool.rpcUrl)) ::
  ((pool.rpcProxy.toList.map fun proxy => ("pool-proxy", .escape proxy)) ++
    ("user", .escape pool.rpcUser) :: ("pass", .escape pool.rpcPass) ::
    ((if pool.goalName.bytes ≠ literal "default" then [("pool-goal", .raw pool.goalName)]
      else []) ++
      ("pool-priority", .quoted pool.prio) ::
      if pool.forceRollntime ≠ 0 then [("force-rollntime", .int pool.forceRollntime)] else []))

/-- The object that is meant. -/
def ConfigPool.tree (pool : ConfigPool) : Tree :=
  .object (pool.members.map fun m => (literal m.1, m.2.tree))

/-- The array that is meant: an object for each pool that is not failover-only, in order. -/
def poolsTree (pools : List ConfigPool) : Tree :=
  .array ((pools.filter fun pool => !pool.failoverOnly).map ConfigPool.tree)

/-- The array that is written is JSON, and read as it is meant. -/
def WritesPools (pools : List ConfigPool) : Prop :=
  ∃ array, writeConfigPools pools = literal "\x7b\n\"pools\" : " ++ array ++ literal "\n" ∧
    IsText array (poolsTree pools) ∧ Utf8 array

/-- Text in UTF-8 without control characters. -/
def PlainText (s : CStr) : Prop := Printable s.bytes ∧ Utf8 s.bytes

/-- The strings of a pool need no other escapes than they get. -/
structure ConfigPool.Writable (pool : ConfigPool) : Prop where
  url : PlainText pool.rpcUrl
  user : PlainText pool.rpcUser
  pass : PlainText pool.rpcPass
  proxy : ∀ proxy, pool.rpcProxy = some proxy → PlainText proxy
  goal : pool.goalName.bytes ≠ literal "default" →
    (∀ c ∈ pool.goalName.bytes, Plain c) ∧ Utf8 pool.goalName.bytes

/-- The first pool is written, or none is, and the strings can be. -/
structure PoolsWritable (pools : List ConfigPool) : Prop where
  first : (∃ pool rest, pools = pool :: rest ∧ pool.failoverOnly = false) ∨
    ∀ pool ∈ pools, pool.failoverOnly = true
  strings : ∀ pool ∈ pools, pool.failoverOnly = false → pool.Writable

/-! ## The text of a pool -/

/-- The line of a member. -/
def lineText (m : String × ConfigValue) : List UInt8 :=
  [0xa, 0x9, 0x9] ++ 0x22 :: (literal m.1 ++ 0x22 :: ([0x20] ++ 0x3a :: ([0x20] ++ m.2.text)))

/-- The lines of members behind another, up to the brace. -/
def linesBehind (ms : List (String × ConfigValue)) : List UInt8 :=
  ms.flatMap (fun m => 0x2c :: lineText m) ++ ([0xa, 0x9] ++ [0x7d])

/-- The text of a pool, without the comma. -/
def ConfigPool.text (pool : ConfigPool) : List UInt8 :=
  match pool.members with
  | [] => []
  | m :: ms => [0xa, 0x9] ++ 0x7b :: (lineText m ++ linesBehind ms)

/-- The pools that are written, with whether there is a comma. -/
def keptPools : ℕ → List ConfigPool → List (ConfigPool × Bool)
  | _, [] => []
  | i, pool :: pools =>
    (if pool.failoverOnly then [] else [(pool, decide (0 < i))]) ++ keptPools (i + 1) pools

theorem jsonEscape_eq (s : CStr) : jsonEscape s = escaped s.bytes := by
  simp only [jsonEscape, escaped, or_comm]

/-- How a member is begun in the text. -/
theorem literal_member : ∀ m ∈ [("\n\t\t\"pool-proxy\" : \"", "pool-proxy"),
      ("\n\t\t\"user\" : \"", "user"), ("\n\t\t\"pass\" : \"", "pass"),
      ("\n\t\t\"pool-goal\" : \"", "pool-goal"),
      ("\n\t\t\"pool-priority\" : \"", "pool-priority")],
    literal m.1 = 0xa :: 0x9 :: 0x9 :: 0x22 :: (literal m.2 ++ [0x22, 0x20, 0x3a, 0x20, 0x22]) := by
  decide +kernel

/-- How an object is begun in the text. -/
theorem literal_object : ∀ m ∈ [("\n\t\x7b\n\t\t\"quota\" : \"", "quota"),
      ("\n\t\x7b\n\t\t\"url\" : \"", "url")],
    literal m.1 = 0xa :: 0x9 :: 0x7b :: 0xa :: 0x9 :: 0x9 :: 0x22 ::
      (literal m.2 ++ [0x22, 0x20, 0x3a, 0x20, 0x22]) := by
  decide +kernel

theorem writeConfigPool_eq (i : ℕ) {pool : ConfigPool} (H : pool.failoverOnly = false) :
    writeConfigPool i pool = (if 0 < i then [0x2c] else []) ++ pool.text := by
  have hlit : literal "," = [0x2c] ∧ literal ";" = [0x3b] ∧ literal "\"," = [0x22, 0x2c] ∧
      literal "\"" = [0x22] ∧ literal "\n\t\x7d" = [0xa, 0x9, 0x7d] := by decide +kernel
  have hroll : literal ",\n\t\t\"force-rollntime\" : " = 0x2c :: 0xa :: 0x9 :: 0x9 :: 0x22 ::
      (literal "force-rollntime" ++ [0x22, 0x20, 0x3a, 0x20]) := by decide +kernel
  have hmember := literal_member
  have hobject := literal_object
  simp only [List.forall_mem_cons, List.not_mem_nil, false_implies, implies_true, and_true]
    at hmember hobject
  have hquota : (if pool.quota ≠ 1 then
        literal "\n\t\x7b\n\t\t\"quota\" : \"" ++ printInt pool.quota ++ literal ";" ++
          jsonEscape pool.rpcUrl ++ literal "\","
      else literal "\n\t\x7b\n\t\t\"url\" : \"" ++ jsonEscape pool.rpcUrl ++ literal "\",") =
      [0xa, 0x9] ++ 0x7b :: (lineText (if pool.quota ≠ 1 then
        ("quota", .quotaUrl pool.quota pool.rpcUrl) else ("url", .escape pool.rpcUrl)) ++ [0x2c]) := by
    split <;> simp [hobject.1, hobject.2, hlit.2.1, hlit.2.2.1, lineText, ConfigValue.text]
  have hforce : (if pool.forceRollntime ≠ 0 then
        literal ",\n\t\t\"force-rollntime\" : " ++ printInt pool.forceRollntime else []) =
      (if pool.forceRollntime ≠ 0 then [("force-rollntime", ConfigValue.int pool.forceRollntime)]
        else []).flatMap fun m => 0x2c :: lineText m := by
    split <;> simp [hroll, lineText, ConfigValue.text]
  rw [writeConfigPool, H, if_neg Bool.false_ne_true, hquota, hforce, ConfigPool.text,
    ConfigPool.members]
  simp only [linesBehind, hlit.1, hlit.2.2.1, hlit.2.2.2.1, hlit.2.2.2.2, hmember.1, hmember.2.1,
    hmember.2.2.1, hmember.2.2.2.1, hmember.2.2.2.2, List.flatMap_append, List.flatMap_cons]
  -- a comma is behind a line in the one text, and in front of the next in the other
  cases pool.rpcProxy <;> by_cases hgoal : pool.goalName.bytes = literal "default" <;>
    simp [hgoal, lineText, ConfigValue.text]

theorem writeConfigLoop_eq (i : ℕ) (pools : List ConfigPool) : writeConfigLoop i pools =
    (keptPools i pools).flatMap fun p => (if p.2 then [0x2c] else []) ++ p.1.text := by
  induction pools generalizing i with
  | nil => rfl
  | cons pool pools ih =>
      rw [writeConfigLoop, keptPools, List.flatMap_append, ih]
      congr 1
      cases hpool : pool.failoverOnly with
      | true => rw [writeConfigPool, if_pos hpool]; rfl
      | false => simp [writeConfigPool_eq i hpool]

/-- The array that is written. -/
def arrayText (pools : List ConfigPool) : List UInt8 :=
  0x5b :: piecesText ConfigPool.text [0xa] (keptPools 0 pools)

theorem writeConfigPools_eq (pools : List ConfigPool) : writeConfigPools pools =
    literal "\x7b\n\"pools\" : " ++ arrayText pools ++ literal "\n" := by
  have hbegin : literal "\x7b\n\"pools\" : [" = literal "\x7b\n\"pools\" : " ++ [0x5b] := by
    decide +kernel
  have hend : literal "\n]\n" = [0xa, 0x5d] ++ literal "\n" := by decide +kernel
  rw [writeConfigPools, hbegin, hend, arrayText, piecesText, writeConfigLoop_eq]
  simp

theorem map_keptPools (i : ℕ) (pools : List ConfigPool) :
    (keptPools i pools).map Prod.fst = pools.filter fun pool => !pool.failoverOnly := by
  induction pools generalizing i with
  | nil => rfl
  | cons pool pools ih =>
      rw [keptPools, List.map_append, ih]
      cases hpool : pool.failoverOnly <;> simp [hpool]

/-! ## How it is read -/

theorem printInt_plain (n : ℤ) : ∀ c ∈ printInt n, Plain c ∧ c < 0x80 := by
  have hdigit : ∀ c ∈ printUint n.natAbs, Plain c ∧ c < 0x80 := by
    intro c hc
    have hrange := (intPart_printUint n.natAbs).1.2 c hc
    have hne : ∀ d : UInt8, ¬ (0x30 ≤ d ∧ d ≤ 0x39) → c ≠ d := fun d hd h => hd (h ▸ hrange)
    refine ⟨⟨UInt8.le_trans (by decide) hrange.1, hne _ (by decide), hne _ (by decide)⟩, ?_⟩
    exact UInt8.lt_of_le_of_lt hrange.2 (by decide)
  rw [printInt]
  split
  · exact List.forall_mem_cons.mpr ⟨by decide, hdigit⟩
  · exact hdigit

theorem exactStr_of_escaped {text s : List UInt8} (H : text = escaped s) :
    ExactStr text s (Printable s) := by
  rintro rest rest' ht
  rw [H, exactStr_escaped s s ht, and_iff_left rfl]
  rfl

theorem exact_configValue (v : ConfigValue) : Exact Value v.text v.tree v.Readable := by
  cases v with
  | quotaUrl quota url =>
      have hplain := printInt_plain quota
      have htext : printInt quota ++ 0x3b :: jsonEscape url =
          escaped (printInt quota ++ 0x3b :: url.bytes) := by
        rw [jsonEscape_eq, escaped_append, escaped_of_plain fun c hc => (hplain c hc).1]
        rfl
      refine (exact_string (exactStr_of_escaped htext)).congr ?_
      rw [Printable, List.forall_mem_append, List.forall_mem_cons]
      exact ⟨fun h => h.2.2, fun h => ⟨fun c hc => (hplain c hc).1.1, by decide, h⟩⟩
  | escape s =>
      exact exact_string (exactStr_of_escaped (jsonEscape_eq s))
  | raw s => exact exact_string (exactStr_raw s.bytes)
  | quoted n =>
      exact (exact_string (exactStr_raw (printInt n))).congr
        (iff_true_intro fun c hc => (printInt_plain n c hc).1)
  | int n =>
      have hn := isNumber_printInt n
      exact (exact_number hn.backslash_notMem).congr (iff_true_intro hn)

/-- The names of members. -/
theorem plain_keys : ∀ key ∈ ["quota", "url", "pool-proxy", "user", "pass", "pool-goal",
    "pool-priority", "force-rollntime"], ∀ c ∈ literal key, Plain c ∧ c < 0x80 := by
  have hall : ∀ key ∈ ["quota", "url", "pool-proxy", "user", "pass", "pool-goal", "pool-priority",
      "force-rollntime"], (literal key).all (fun c => Plain c ∧ c < 0x80) = true := by
    decide +kernel
  exact fun key hkey c hc => of_decide_eq_true (List.all_eq_true.mp (hall key hkey) c hc)

theorem plain_of_mem_members {pool : ConfigPool} {m : String × ConfigValue}
    (H : m ∈ pool.members) : ∀ c ∈ literal m.1, Plain c ∧ c < 0x80 := by
  refine plain_keys m.1 ?_
  have hkeys : pool.members.map Prod.fst ⊆ ["quota", "url", "pool-proxy", "user", "pass",
      "pool-goal", "pool-priority", "force-rollntime"] := by
    rw [ConfigPool.members]
    cases pool.rpcProxy <;> split_ifs <;> simp
  exact hkeys (List.mem_map_of_mem H)

theorem exact_line {m : String × ConfigValue} (hkey : ∀ c ∈ literal m.1, Plain c) :
    Exact JsonText.Member (lineText m) (literal m.1, m.2.tree) m.2.Readable := by
  have hblank : Blank [0x20] ∧ Blank [0xa, 0x9, 0x9] := by decide
  have hmember := exact_member_blanks (exactStr_raw (literal m.1)) hblank.1 hblank.1
    (exact_configValue m.2)
  exact (hmember.blanks skipsBlanks_member hblank.2).congr (and_iff_right hkey)

/-- The members behind another. -/
theorem exact_linesBehind {ms : List (String × ConfigValue)}
    (hkeys : ∀ m ∈ ms, ∀ c ∈ literal m.1, Plain c) :
    Exact (JsonText.Behind JsonText.Member 0x7d) (linesBehind ms)
      (ms.map fun m => (literal m.1, m.2.tree))
      (∀ m ∈ ms, m.2.Readable) := by
  induction ms with
  | nil =>
      have hclose : Exact (JsonText.Behind JsonText.Member 0x7d) [0x7d] [] True :=
        exact_close rfl (by decide) (by decide)
      exact (hclose.blanks skipsBlanks_behind (by decide)).congr (by simp)
  | cons m ms ih =>
      rw [List.forall_mem_cons] at hkeys
      have htext : linesBehind (m :: ms) = 0x2c :: (lineText m ++ linesBehind ms) := by
        simp [linesBehind]
      rw [htext, List.map_cons]
      refine (exact_comma (by decide) (exact_listed (exact_line hkeys.1) (ih hkeys.2))).congr ?_
      rw [List.forall_mem_cons]

/-- The object of a pool. -/
theorem exact_pool (pool : ConfigPool) :
    Exact Value pool.text pool.tree (∀ m ∈ pool.members, m.2.Readable) := by
  have hkeys : ∀ m ∈ pool.members, ∀ c ∈ literal m.1, Plain c := fun m hm c hc =>
    (plain_of_mem_members hm c hc).1
  obtain ⟨m, ms, hmembers⟩ : ∃ m ms, pool.members = m :: ms := ⟨_, _, rfl⟩
  rw [hmembers, List.forall_mem_cons] at hkeys
  rw [ConfigPool.tree, ConfigPool.text, hmembers, List.map_cons]
  have hobject := exact_object (exact_listed (exact_line hkeys.1) (exact_linesBehind hkeys.2))
  refine (hobject.blanks skipsBlanks_value (by decide)).congr ?_
  rw [List.forall_mem_cons]

theorem startsValue_pool (pool : ConfigPool) : StartsValue pool.text := by
  obtain ⟨m, ms, hmembers⟩ : ∃ m ms, pool.members = m :: ms := ⟨_, _, rfl⟩
  rw [ConfigPool.text, hmembers]
  exact ⟨0x7b, _, (skipWs_append (by decide) _).trans (skipWs_cons rfl _), by decide, by decide⟩

theorem forall_mem_keptPools (pools : List ConfigPool) (i : ℕ) (P : ConfigPool → Prop) :
    (∀ p ∈ keptPools i pools, P p.1) ↔ ∀ pool ∈ pools, pool.failoverOnly = false → P pool := by
  have hmap : (∀ p ∈ keptPools i pools, P p.1) ↔
      ∀ pool ∈ (keptPools i pools).map Prod.fst, P pool := List.forall_mem_map.symm
  rw [hmap, map_keptPools]
  simp only [List.mem_filter, Bool.not_eq_true', and_imp]

theorem comma_of_mem_keptPools {pools : List ConfigPool} {i : ℕ} (hi : 0 < i)
    {p : ConfigPool × Bool} (H : p ∈ keptPools i pools) : p.2 = true := by
  induction pools generalizing i with
  | nil => cases H
  | cons pool pools ih =>
      rcases List.mem_append.mp H with H | H
      · split at H
        next => cases H
        next => exact List.mem_singleton.mp H ▸ decide_eq_true hi
      · exact ih (Nat.succ_pos i) H

/-- Only the first pool is written without a comma. -/
theorem separated_keptPools_iff (pools : List ConfigPool) : Separated (keptPools 0 pools) ↔
    (∃ pool rest, pools = pool :: rest ∧ pool.failoverOnly = false) ∨
      ∀ pool ∈ pools, pool.failoverOnly = true := by
  cases pools with
  | nil => simp [keptPools, Separated]
  | cons pool pools =>
      cases hpool : pool.failoverOnly with
      | false =>
          have hkept : keptPools 0 (pool :: pools) = (pool, false) :: keptPools 1 pools := by
            simp [keptPools, hpool]
          rw [hkept]
          refine iff_of_true ⟨rfl, fun p hp => ?_⟩ (.inl ⟨pool, pools, rfl, hpool⟩)
          exact comma_of_mem_keptPools Nat.one_pos hp
      | true =>
          have hkept : keptPools 0 (pool :: pools) = keptPools 1 pools := by
            simp [keptPools, hpool]
          have hnone : (∀ p ∈ keptPools 1 pools, False) ↔ _ :=
            forall_mem_keptPools pools 1 fun _ => False
          rw [hkept]
          constructor
          · intro H
            refine .inr (List.forall_mem_cons.mpr ⟨hpool, ?_⟩)
            cases hps : keptPools 1 pools with
            | nil =>
                rw [hps] at hnone
                exact fun q hq => by simpa using hnone.mp (by simp) q hq
            | cons p ps =>
                rw [hps] at H
                have := comma_of_mem_keptPools Nat.one_pos (hps ▸ List.mem_cons_self)
                rw [H.1] at this
                cases this
          · rintro (⟨_, _, hcons, hfirst⟩ | hall)
            · obtain ⟨rfl, -⟩ := List.cons.inj hcons
              rw [hpool] at hfirst
              cases hfirst
            · have hempty : keptPools 1 pools = [] := by
                refine List.eq_nil_iff_forall_not_mem.mpr fun p hp => ?_
                refine hnone.mpr (fun q hq hkept => ?_) p hp
                rw [hall q (List.mem_cons_of_mem _ hq)] at hkept
                cases hkept
              rw [hempty]
              trivial

theorem exact_array_pools (pools : List ConfigPool) : Exact Value (arrayText pools)
    (poolsTree pools) (Separated (keptPools 0 pools) ∧
      ∀ pool ∈ pools, pool.failoverOnly = false → ∀ m ∈ pool.members, m.2.Readable) := by
  have hblank : Blank [0xa] := by decide
  have hpieces := exact_pieces exact_pool startsValue_pool hblank (keptPools 0 pools)
  have htree : (keptPools 0 pools).map (fun p => p.1.tree) =
      (pools.filter fun pool => !pool.failoverOnly).map ConfigPool.tree := by
    rw [← map_keptPools 0, List.map_map]
    rfl
  rw [htree] at hpieces
  exact hpieces.congr (and_congr_right' (forall_mem_keptPools pools 0 fun pool =>
    ∀ m ∈ pool.members, m.2.Readable))

/-! ## How it is encoded -/

/-- Backslashes do not matter to the encoding. -/
theorem utf8_escaped_iff (front s rest : List UInt8) :
    Utf8 (front ++ (escaped s ++ rest)) ↔ Utf8 (front ++ (s ++ rest)) := by
  induction s generalizing front with
  | nil => rfl
  | cons c s ih =>
      rw [escaped, List.flatMap_cons, ← escaped]
      split
      next hc =>
        have hlow : c < 0x80 ∧ (0x5c : UInt8) < 0x80 := by rcases hc with rfl | rfl <;> decide
        have htext : front ++ ([0x5c, c] ++ escaped s ++ rest) =
            front ++ 0x5c :: (c :: (escaped s ++ rest)) := by simp
        have hnext := ih []
        rw [List.nil_append, List.nil_append] at hnext
        rw [htext, List.cons_append, utf8_append_cons_iff hlow.2, utf8_append_cons_iff hlow.1,
          utf8_cons_iff hlow.1, hnext]
      next hc =>
        have hnext := ih (front ++ [c])
        rw [List.append_assoc, List.append_assoc] at hnext
        rw [List.append_assoc, List.cons_append]
        exact hnext

theorem encoded_escaped (s : List UInt8) : Encoded (escaped s ++ [0x22]) (Utf8 s) := fun rest => by
  have hescaped := utf8_escaped_iff [] s (0x22 :: rest)
  rw [List.nil_append, List.nil_append] at hescaped
  rw [List.append_assoc, List.singleton_append, hescaped, utf8_append_cons_iff (by decide)]

theorem encoded_configValue (v : ConfigValue) : Encoded v.text (Utf8 v.meant) := by
  have hint : ∀ n, Encoded (printInt n) True := fun n =>
    encoded_ascii fun c hc => (printInt_plain n c hc).2
  have hquote : Encoded [0x22] True := encoded_ascii (by decide)
  cases v with
  | quotaUrl quota url =>
      have htext : ConfigValue.text (.quotaUrl quota url) =
          [0x22] ++ (printInt quota ++ ([0x3b] ++ (escaped url.bytes ++ [0x22]))) := by
        simp [ConfigValue.text, jsonEscape_eq]
      have hsemi : Encoded [0x3b] True := encoded_ascii (by decide)
      have hmeant : Utf8 (printInt quota ++ 0x3b :: url.bytes) ↔ Utf8 url.bytes := by
        rw [hint, true_and, utf8_cons_iff (by decide)]
      rw [htext]
      have hbehind := hsemi.append (encoded_escaped url.bytes)
      refine (hquote.append ((hint quota).append hbehind)).congr ?_
      simp only [true_and]
      exact hmeant.symm
  | escape s =>
      have htext : ConfigValue.text (.escape s) = [0x22] ++ (escaped s.bytes ++ [0x22]) := by
        rw [ConfigValue.text, jsonEscape_eq]
        rfl
      rw [htext]
      exact (hquote.append (encoded_escaped s.bytes)).congr (iff_of_eq (true_and _))
  | raw s =>
      exact (hquote.append (encoded_concat s.bytes (by decide))).congr (iff_of_eq (true_and _))
  | quoted n =>
      refine (hquote.append ((hint n).append hquote)).congr ?_
      simp only [true_and]
      exact iff_of_true trivial ((hint n).utf8_iff.mpr trivial)
  | int n => exact (hint n).congr (hint n).utf8_iff.symm

theorem encoded_line {m : String × ConfigValue} (hkey : ∀ c ∈ literal m.1, c < 0x80) :
    Encoded (lineText m) (Utf8 m.2.meant) := by
  have hbefore :
      Encoded ([0xa, 0x9, 0x9, 0x22] ++ (literal m.1 ++ [0x22, 0x20, 0x3a, 0x20])) True :=
    ((encoded_ascii (by decide)).append ((encoded_ascii hkey).append
      (encoded_ascii (by decide)))).congr (by simp)
  have htext : lineText m =
      [0xa, 0x9, 0x9, 0x22] ++ (literal m.1 ++ [0x22, 0x20, 0x3a, 0x20]) ++ m.2.text := by
    simp [lineText]
  rw [htext]
  exact (hbefore.append (encoded_configValue m.2)).congr (iff_of_eq (true_and _))

theorem encoded_pool (pool : ConfigPool) :
    Encoded pool.text (∀ m ∈ pool.members, Utf8 m.2.meant) := by
  have hkeys : ∀ m ∈ pool.members, ∀ c ∈ literal m.1, c < 0x80 := fun m hm c hc =>
    (plain_of_mem_members hm c hc).2
  obtain ⟨m, ms, hmembers⟩ : ∃ m ms, pool.members = m :: ms := ⟨_, _, rfl⟩
  rw [hmembers, List.forall_mem_cons] at hkeys
  rw [ConfigPool.text, hmembers]
  have hbegin : Encoded [0xa, 0x9, 0x7b] True := encoded_ascii (by decide)
  have hend : Encoded [0xa, 0x9, 0x7d] True := encoded_ascii (by decide)
  have hcomma : Encoded [0x2c] True := encoded_ascii (by decide)
  have hlines : Encoded (ms.flatMap fun m => 0x2c :: lineText m) (∀ m ∈ ms, Utf8 m.2.meant) :=
    encoded_flatMap fun m hm =>
      (hcomma.append (encoded_line (hkeys.2 m hm))).congr (iff_of_eq (true_and _))
  refine (hbegin.append ((encoded_line hkeys.1).append (hlines.append hend))).congr ?_
  rw [List.forall_mem_cons, true_and, and_true]

theorem encoded_arrayText (pools : List ConfigPool) : Encoded (arrayText pools)
    (∀ pool ∈ pools, pool.failoverOnly = false → ∀ m ∈ pool.members, Utf8 m.2.meant) := by
  have hbegin : Encoded [0x5b] True := encoded_ascii (by decide)
  have hend : Encoded ([0xa] ++ [0x5d]) True := encoded_ascii (by decide)
  have hpieces : Encoded ((keptPools 0 pools).flatMap fun p =>
      (if p.2 then [0x2c] else []) ++ p.1.text)
      (∀ p ∈ keptPools 0 pools, ∀ m ∈ p.1.members, Utf8 m.2.meant) := by
    refine encoded_flatMap fun p _ => ?_
    have hcomma : Encoded (if p.2 then [0x2c] else []) True :=
      encoded_ascii (by cases p.2 <;> decide)
    exact (hcomma.append (encoded_pool p.1)).congr (iff_of_eq (true_and _))
  refine (hbegin.append (hpieces.append hend)).congr ?_
  rw [true_and, and_true]
  exact forall_mem_keptPools pools 0 fun pool => ∀ m ∈ pool.members, Utf8 m.2.meant

/-! ## When the array is right -/

theorem writable_iff (pool : ConfigPool) : pool.Writable ↔
    ∀ m ∈ pool.members, m.2.Readable ∧ Utf8 m.2.meant := by
  have hint : ∀ n, Utf8 (printInt n) := fun n =>
    (encoded_ascii fun c hc => (printInt_plain n c hc).2).utf8_iff.mpr trivial
  have hquota : ∀ quota : ℤ, Utf8 (printInt quota ++ 0x3b :: pool.rpcUrl.bytes) ↔
      Utf8 pool.rpcUrl.bytes := fun quota => by
    rw [encoded_ascii fun c hc => (printInt_plain quota c hc).2, true_and,
      utf8_cons_iff (by decide)]
  have hurl : ∀ m, (m = if pool.quota ≠ 1 then ("quota", .quotaUrl pool.quota pool.rpcUrl)
      else ("url", ConfigValue.escape pool.rpcUrl)) →
        (m.2.Readable ∧ Utf8 m.2.meant ↔ PlainText pool.rpcUrl) := by
    rintro m rfl
    split
    · exact and_congr_right' (hquota pool.quota)
    · rfl
  have hproxy : (∀ m ∈ pool.rpcProxy.toList.map fun s => ("pool-proxy", ConfigValue.escape s),
      m.2.Readable ∧ Utf8 m.2.meant) ↔ ∀ s, pool.rpcProxy = some s → PlainText s := by
    rw [List.forall_mem_map]
    simp only [Option.mem_toList]
    rfl
  have hgoal : (∀ m ∈ if pool.goalName.bytes ≠ literal "default" then
      [("pool-goal", ConfigValue.raw pool.goalName)] else [], m.2.Readable ∧ Utf8 m.2.meant) ↔
        (pool.goalName.bytes ≠ literal "default" →
          (∀ c ∈ pool.goalName.bytes, Plain c) ∧ Utf8 pool.goalName.bytes) := by
    split
    next h =>
      rw [List.forall_mem_singleton]
      exact ⟨fun H _ => H, fun H => H h⟩
    next h => exact iff_of_true (fun m hm => by cases hm) fun hne => absurd hne h
  have hroll : ∀ m ∈ if pool.forceRollntime ≠ 0 then
      [("force-rollntime", ConfigValue.int pool.forceRollntime)] else [],
      m.2.Readable ∧ Utf8 m.2.meant := by
    split
    next => exact List.forall_mem_singleton.mpr ⟨trivial, hint _⟩
    next => exact fun m hm => by cases hm
  rw [ConfigPool.members, List.forall_mem_cons, List.forall_mem_append, List.forall_mem_cons,
    List.forall_mem_cons, List.forall_mem_append, List.forall_mem_cons, hurl _ rfl, hproxy, hgoal]
  constructor
  · rintro ⟨url, user, pass, proxy, goal⟩
    exact ⟨url, proxy, user, pass, goal, ⟨trivial, hint _⟩, hroll⟩
  · rintro ⟨url, proxy, user, pass, goal, -⟩
    exact ⟨url, user, pass, proxy, goal⟩

/-- **The array is right exactly if the first pool is written, or none is, and no string needs an
escape that it does not get.** -/
theorem writesPools_iff (pools : List ConfigPool) : WritesPools pools ↔ PoolsWritable pools := by
  have hexact := (exact_array_pools pools).isText_iff
  have hencoded := (encoded_arrayText pools).utf8_iff
  have harray : WritesPools pools ↔ IsText (arrayText pools) (poolsTree pools) ∧
      Utf8 (arrayText pools) := by
    constructor
    · rintro ⟨array, htext, hjson, hutf⟩
      rw [writeConfigPools_eq, List.append_left_inj, List.append_right_inj] at htext
      exact htext ▸ ⟨hjson, hutf⟩
    · exact fun H => ⟨_, writeConfigPools_eq pools, H⟩
  rw [harray, hexact, hencoded, separated_keptPools_iff]
  constructor
  · rintro ⟨⟨hfirst, hreadable⟩, hutf⟩
    exact ⟨hfirst, fun pool hp hkept => (writable_iff pool).mpr fun m hm =>
      ⟨hreadable pool hp hkept m hm, hutf pool hp hkept m hm⟩⟩
  · rintro ⟨hfirst, hstrings⟩
    have hmembers := fun pool hp hkept => (writable_iff pool).mp (hstrings pool hp hkept)
    exact ⟨⟨hfirst, fun pool hp hkept m hm => (hmembers pool hp hkept m hm).1⟩,
      fun pool hp hkept m hm => (hmembers pool hp hkept m hm).2⟩

/-- Two pools with plain strings, of which the first is failover-only. -/
def failoverFirst : List ConfigPool :=
  [true, false].map fun failoverOnly => {
    rpcUrl := ⟨literal "http://h", by decide +kernel⟩
    rpcUser := ⟨literal "u", by decide +kernel⟩
    rpcPass := ⟨literal "p", by decide +kernel⟩
    rpcProxy := none
    goalName := ⟨literal "default", by decide +kernel⟩
    quota := 1
    prio := 0
    forceRollntime := 0
    failoverOnly := failoverOnly }

/-- The array starts with a comma. -/
theorem not_writesPools_failoverFirst : ¬ WritesPools failoverFirst := by
  rintro ⟨array, htext, hjson, -⟩
  rw [writeConfigPools_eq, List.append_left_inj, List.append_right_inj] at htext
  rw [← htext] at hjson
  have hfirst := ((exact_array_pools failoverFirst).isText_iff.mp hjson).1
  rw [separated_keptPools_iff] at hfirst
  rcases hfirst with ⟨pool, rest, hcons, hkept⟩ | hall
  · obtain ⟨rfl, -⟩ := List.cons.inj hcons
    cases hkept
  · cases hall _ (List.mem_cons_of_mem _ List.mem_cons_self)

end MassGridMiner
