import Mathlib.Data.List.Forall2
import Img2Web.Json.Document
import Img2Web.Model.Handlers

/-!
The body of a feed response as a JSON document. The owner and the image of an
item are put between quotation marks as they are, so the document is read slot
by slot: it is the feed that was meant exactly when no text has a character
that must be escaped.
-/

namespace Img2Web

open Text Json

/-- A feed item whose owner and image are text. -/
abbrev FeedItem := String × String

def FeedItem.description (item : FeedItem) : ImageDescription :=
  ⟨bytes item.1, bytes item.2⟩

section Text

def itemText (item : FeedItem) : String :=
  "\x7b\"owner\":\"" ++ item.1 ++ "\", \"image\": \"" ++ item.2 ++ "\"\x7d"

/-- The items and the rest of the document. -/
def itemsText : List FeedItem → String
  | [] => " ] \x7d"
  | [item] => itemText item ++ " ] \x7d"
  | item :: rest => itemText item ++ "," ++ itemsText rest

def feedText (items : List FeedItem) : String := "\x7b \"items\" : [" ++ itemsText items

theorem feedItem_text (item : FeedItem) :
    feedItem item.description = bytes (itemText item) := by
  simp only [feedItem, itemText, FeedItem.description, bytes_append]

theorem itemsText_cons (item : FeedItem) {rest : List FeedItem} (hrest : rest ≠ []) :
    itemsText (item :: rest) = itemText item ++ "," ++ itemsText rest := by
  cases rest with
  | nil => exact absurd rfl hrest
  | cons next rest => rfl

/-- The loop over all items but the last, and the last one. -/
theorem feedBody_loop (init : List FeedItem) (last : FeedItem) (acc : Bytes) :
    (init.map FeedItem.description).foldl
        (fun res item => res ++ (feedItem item ++ bytes ",")) acc ++
      feedItem last.description ++ bytes " ] \x7d" =
    acc ++ bytes (itemsText (init ++ [last])) := by
  induction init generalizing acc with
  | nil =>
      rw [List.map_nil, List.foldl_nil, List.nil_append, itemsText, bytes_append,
        feedItem_text, List.append_assoc]
  | cons item init ih =>
      rw [List.map_cons, List.foldl_cons, ih, List.cons_append,
        itemsText_cons item (by simp), bytes_append, bytes_append, feedItem_text]
      simp only [List.append_assoc]

theorem feedBody_text (items : List FeedItem) :
    feedBody (items.map FeedItem.description) = bytes (feedText items) := by
  rcases List.eq_nil_or_concat items with rfl | ⟨init, last, rfl⟩
  · rfl
  · have hloop := feedBody_loop init last (bytes "\x7b \"items\" : [")
    rw [List.concat_eq_append, feedBody, List.map_append, List.map_singleton,
      List.dropLast_concat, List.getLast?_concat, feedText, bytes_append]
    exact hloop

end Text

section Reading

/-- No character of the item's owner or image must be escaped. -/
def FeedItem.Clean (item : FeedItem) : Prop :=
  (∀ c ∈ item.1.toList, isSpecial c = false) ∧ ∀ c ∈ item.2.toList, isSpecial c = false

def FeedItem.members (item : FeedItem) : List (List Char × Value) :=
  [("owner".toList, .string item.1.toList), ("image".toList, .string item.2.toList)]

/-- The value is an object with exactly these members, in any order. -/
def IsItem (v : Value) (item : FeedItem) : Prop :=
  ∃ ms, v = .object ms ∧ ms.Perm item.members

/-- The value is an object whose only member named `items` is an array of the
items, in their order. -/
def IsFeed (v : Value) (items : List FeedItem) : Prop :=
  ∃ ms vs, v = .object ms ∧
    ms.filter (fun m => m.1 = "items".toList) = [("items".toList, .array vs)] ∧
    List.Forall₂ IsItem vs items

/-- The bytes are a JSON document in UTF-8 that denotes the feed. -/
def Decodes (body : Bytes) (items : List FeedItem) : Prop :=
  ∃ (text : String) (v : Value), body = bytes text ∧ Denotes text.toList v ∧ IsFeed v items

/-- What follows the owner of an item. -/
def afterOwner (image rest : List Char) : List Char :=
  ',' :: (" \"image\":".toList ++ (' ' :: '"' :: (image ++ '"' :: '}' :: rest)))

theorem itemText_append (item : FeedItem) (rest : List Char) :
    (itemText item).toList ++ rest =
      '{' :: ("\"owner\":".toList ++
        ('"' :: (item.1.toList ++ '"' :: afterOwner item.2.toList rest))) := by
  simp [itemText, afterOwner]

theorem readKey_owner (text : List Char) :
    readKey ("\"owner\":".toList ++ text) = some ("owner".toList, text) := rfl

theorem readKey_image (text : List Char) :
    readKey (" \"image\":".toList ++ text) = some ("image".toList, text) := rfl

theorem readMoreMembers_comma (n : Nat) (text : List Char) :
    readMoreMembers n (',' :: text) = readMembers n text := rfl

theorem readMoreMembers_close (n : Nat) (text : List Char) :
    readMoreMembers n ('}' :: text) = some ([], text) := rfl

/-- The members of an item are read as they should be exactly when the item is
clean. -/
theorem readMembers_item_iff (n : Nat) (item : FeedItem) (rest after : List Char) :
    readMembers (n + 3) ("\"owner\":".toList ++
        ('"' :: (item.1.toList ++ '"' :: afterOwner item.2.toList rest))) =
        some (item.members, after) ↔
      item.Clean ∧ rest = after := by
  rw [FeedItem.members, readMembers_slot_iff (readKey_owner _) rfl, afterOwner,
    readMoreMembers_comma, readMembers_slot_iff (readKey_image _) rfl,
    readMoreMembers_close, FeedItem.Clean, and_assoc]
  simp

/-- If the member that comes first is the owner, the other one is the image. -/
theorem members_of_perm {item : FeedItem} {v : Value} {more : List (List Char × Value)}
    (h : (("owner".toList, v) :: more).Perm item.members) :
    ("owner".toList, v) :: more = item.members := by
  have hmem : ("owner".toList, v) ∈ item.members := h.subset List.mem_cons_self
  have howner : v = .string item.1.toList := by
    rcases List.mem_cons.mp hmem with heq | hlater
    · exact (Prod.mk.inj heq).2
    · have hkeys := (Prod.mk.inj (List.mem_singleton.mp hlater)).1
      exact absurd hkeys (by decide)
  subst howner
  have hrest : more.Perm [("image".toList, .string item.2.toList)] := h.cons_inv
  rw [List.perm_singleton.mp hrest]
  rfl

theorem readValue_item_iff (n : Nat) {item : FeedItem} {v : Value} (hv : IsItem v item)
    (rest after : List Char) :
    readValue (n + 4) ((itemText item).toList ++ rest) = some (v, after) ↔
      item.Clean ∧ v = .object item.members ∧ rest = after := by
  obtain ⟨ms, rfl, hperm⟩ := hv
  rw [itemText_append]
  rw [readValue_object rfl rfl]
  constructor
  · intro h
    obtain ⟨⟨ms', after'⟩, hread, heq⟩ := Option.map_eq_some_iff.mp h
    obtain ⟨hms, rfl⟩ := Prod.mk.inj heq
    obtain rfl : ms' = ms := by simpa using hms
    -- the member that was written first is read first, and it is the owner
    obtain ⟨s, more, rfl⟩ := readMembers_head (readKey_owner _) hread
    have hmembers := members_of_perm hperm
    rw [hmembers] at hread
    obtain ⟨hclean, hrest⟩ := (readMembers_item_iff n item rest after').mp hread
    exact ⟨hclean, congrArg Value.object hmembers, hrest⟩
  · rintro ⟨hclean, hms, hrest⟩
    obtain rfl : ms = item.members := by simpa using hms
    rw [(readMembers_item_iff n item rest after).mpr ⟨hclean, hrest⟩]
    rfl

theorem itemsText_last (item : FeedItem) :
    (itemsText [item]).toList = (itemText item).toList ++ " ] \x7d".toList := by
  simp [itemsText]

theorem itemsText_next (item next : FeedItem) (rest : List FeedItem) :
    (itemsText (item :: next :: rest)).toList =
      (itemText item).toList ++ ',' :: (itemsText (next :: rest)).toList := by
  simp [itemsText]

theorem itemsText_open (item : FeedItem) (rest : List FeedItem) :
    ∃ more, (itemsText (item :: rest)).toList = '{' :: more := by
  cases rest with
  | nil => exact ⟨_, by rw [itemsText_last, itemText_append]⟩
  | cons next rest => exact ⟨_, by rw [itemsText_next, itemText_append]⟩

theorem readMoreElements_last (n : Nat) :
    readMoreElements n " ] \x7d".toList = some ([], " \x7d".toList) := rfl

theorem readMoreElements_comma (n : Nat) (text : List Char) :
    readMoreElements n (',' :: text) = readElements n text := rfl

/-- The array is read as the items, in their order, exactly when all of them
are clean. The induction follows the loop that writes them, and takes one unit
of fuel for each. -/
theorem readElements_items_iff (n : Nat) (item : FeedItem) (rest : List FeedItem)
    {vs : List Value} (hvs : List.Forall₂ IsItem vs (item :: rest)) (after : List Char) :
    readElements (n + rest.length + 5) (itemsText (item :: rest)).toList = some (vs, after) ↔
      (∀ i ∈ item :: rest, i.Clean) ∧
        vs = (item :: rest).map (fun i => .object i.members) ∧ " \x7d".toList = after := by
  induction rest generalizing item vs with
  | nil =>
      cases hvs with
      | @cons v _ vs _ hv hnil =>
          cases hnil
          rw [itemsText_last, readElements_cons_iff, List.forall_mem_singleton]
          constructor
          · rintro ⟨text, hread, hmore⟩
            obtain ⟨hclean, rfl, rfl⟩ := (readValue_item_iff _ hv _ _).mp hread
            rw [readMoreElements_last] at hmore
            exact ⟨hclean, rfl, (Prod.mk.inj (Option.some.inj hmore)).2⟩
          · rintro ⟨hclean, hvs, rfl⟩
            obtain ⟨rfl, -⟩ := List.cons.inj hvs
            exact ⟨_, (readValue_item_iff _ hv _ _).mpr ⟨hclean, rfl, rfl⟩,
              readMoreElements_last _⟩
  | cons next rest ih =>
      cases hvs with
      | @cons v _ vs _ hv htail =>
          have hfuel : n + (next :: rest).length + 5 = (n + rest.length + 1 + 4) + 1 := by
            simp only [List.length_cons]
            omega
          rw [itemsText_next, hfuel, readElements_cons_iff, List.forall_mem_cons]
          constructor
          · rintro ⟨text, hread, hmore⟩
            obtain ⟨hclean, rfl, rfl⟩ := (readValue_item_iff _ hv _ _).mp hread
            rw [readMoreElements_comma] at hmore
            obtain ⟨hall, rfl, hafter⟩ := (ih next htail).mp hmore
            exact ⟨⟨hclean, hall⟩, rfl, hafter⟩
          · rintro ⟨⟨hclean, hall⟩, hvs, hafter⟩
            obtain ⟨rfl, hmore⟩ := List.cons.inj hvs
            refine ⟨_, (readValue_item_iff _ hv _ _).mpr ⟨hclean, rfl, rfl⟩, ?_⟩
            rw [readMoreElements_comma]
            exact (ih next htail).mpr ⟨hall, hmore, hafter⟩

theorem feedText_toList (items : List FeedItem) :
    (feedText items).toList =
      '{' :: (" \"items\" :".toList ++ " [".toList ++ (itemsText items).toList) := by
  simp [feedText]

theorem readKey_items (text : List Char) :
    readKey (" \"items\" :".toList ++ text) = some ("items".toList, text) := rfl

theorem readMoreMembers_end (n : Nat) :
    readMoreMembers n " \x7d".toList = some ([], []) := rfl

/-- The array, from its opening bracket. -/
theorem readValue_items_iff (n : Nat) (items : List FeedItem) {vs : List Value}
    (hvs : List.Forall₂ IsItem vs items) (after : List Char) :
    readValue (n + items.length + 6) (" [".toList ++ (itemsText items).toList) =
        some (.array vs, after) ↔
      (∀ i ∈ items, i.Clean) ∧
        vs = items.map (fun i => .object i.members) ∧ " \x7d".toList = after := by
  cases items with
  | nil =>
      cases hvs
      have hread : readValue (n + 6) (" [".toList ++ (itemsText []).toList) =
          some (.array [], " \x7d".toList) := rfl
      rw [List.length_nil, Nat.add_zero, hread]
      simp
  | cons item rest =>
      obtain ⟨more, hmore⟩ := itemsText_open item rest
      have hnonempty : expect [']'] (skipBlanks (itemsText (item :: rest)).toList) = none := by
        rw [hmore]
        rfl
      have hfuel : n + (item :: rest).length + 6 = (n + 1 + rest.length + 5) + 1 := by
        simp only [List.length_cons]
        omega
      have hread := readElements_items_iff (n + 1) item rest hvs after
      rw [hfuel, readValue_array rfl hnonempty, ← hread]
      simp

/-- The value of a feed, as its document shows it. -/
def feedValue (items : List FeedItem) : Value :=
  .object [("items".toList, .array (items.map fun i => .object i.members))]

theorem isFeed_feedValue (items : List FeedItem) : IsFeed (feedValue items) items := by
  refine ⟨_, items.map fun i => .object i.members, rfl, rfl, ?_⟩
  rw [List.forall₂_map_left_iff, List.forall₂_same]
  exact fun i _ => ⟨i.members, rfl, List.Perm.refl _⟩

theorem readValue_feed_iff (n : Nat) (items : List FeedItem) {v : Value}
    (hv : IsFeed v items) (after : List Char) :
    readValue (n + items.length + 8) (feedText items).toList = some (v, after) ↔
      (∀ i ∈ items, i.Clean) ∧ v = feedValue items ∧ [] = after := by
  obtain ⟨ms, vs, rfl, hfilter, hvs⟩ := hv
  have hitems := readValue_items_iff n items hvs
  rw [feedText_toList, List.append_assoc, readValue_object rfl rfl]
  constructor
  · intro h
    obtain ⟨⟨ms', after'⟩, hmembers, heq⟩ := Option.map_eq_some_iff.mp h
    obtain ⟨hms, rfl⟩ := Prod.mk.inj heq
    obtain rfl := Value.object.inj hms
    -- the member that is read first is the one the decoded feed has
    obtain ⟨first, more, rfl⟩ := readMembers_head (readKey_items _) hmembers
    obtain ⟨rfl, hmore⟩ : first = .array vs ∧ _ := by simpa using hfilter
    obtain ⟨-, text, harray, hend⟩ := (readMembers_cons_iff (readKey_items _)).mp hmembers
    obtain ⟨hclean, rfl, rfl⟩ := (hitems text).mp harray
    rw [readMoreMembers_end] at hend
    obtain ⟨rfl, rfl⟩ := Prod.mk.inj (Option.some.inj hend)
    exact ⟨hclean, rfl, rfl⟩
  · rintro ⟨hclean, hms, rfl⟩
    obtain rfl := Value.object.inj hms
    obtain rfl : vs = items.map (fun i => .object i.members) := by simpa using hfilter.symm
    have harray := (hitems " \x7d".toList).mpr ⟨hclean, rfl, rfl⟩
    have hmembers : readMembers (n + items.length + 7)
        (" \"items\" :".toList ++ (" [".toList ++ (itemsText items).toList)) =
        some ([("items".toList, .array (items.map fun i => .object i.members))], []) :=
      (readMembers_cons_iff (readKey_items _)).mpr ⟨rfl, _, harray, readMoreMembers_end _⟩
    rw [hmembers]
    rfl

end Reading

/-- The body decodes to the feed it was made from exactly when no text in it
has a character that must be escaped. -/
theorem feedBody_decodes_iff (items : List FeedItem) :
    Decodes (feedBody (items.map FeedItem.description)) items ↔ ∀ i ∈ items, i.Clean := by
  constructor
  · rintro ⟨text, v, hbody, ⟨fuel, after, hread, -⟩, hfeed⟩
    obtain rfl : feedText items = text := by
      rw [feedBody_text] at hbody
      exact bytes_inj.mp hbody
    have hread' := readValue_add hread (items.length + 8)
    rw [← Nat.add_assoc] at hread'
    exact ((readValue_feed_iff fuel items hfeed after).mp hread').1
  · intro hclean
    have hread := (readValue_feed_iff 0 items (isFeed_feedValue items) []).mpr
      ⟨hclean, rfl, rfl⟩
    exact ⟨feedText items, feedValue items, feedBody_text items, ⟨_, [], hread, rfl⟩,
      isFeed_feedValue items⟩

theorem IsItem.unique {v : Value} {item item' : FeedItem} (h : IsItem v item)
    (h' : IsItem v item') : item = item' := by
  obtain ⟨ms, rfl, hperm⟩ := h
  obtain ⟨ms', hms, hperm'⟩ := h'
  obtain rfl := Value.object.inj hms
  have hmembers : item.members = item'.members := members_of_perm (hperm.symm.trans hperm')
  have howner : item.1.toList = item'.1.toList := by
    simpa [FeedItem.members] using congrArg List.head? hmembers
  have himage : item.2.toList = item'.2.toList := by
    simpa [FeedItem.members] using congrArg List.getLast? hmembers
  exact Prod.ext (String.toList_inj.mp howner) (String.toList_inj.mp himage)

/-- A value is the value of at most one feed. -/
theorem IsFeed.unique {v : Value} {items items' : List FeedItem} (h : IsFeed v items)
    (h' : IsFeed v items') : items = items' := by
  obtain ⟨ms, vs, rfl, hfilter, hvs⟩ := h
  obtain ⟨ms', vs', hms, hfilter', hvs'⟩ := h'
  obtain rfl := Value.object.inj hms
  obtain rfl : vs = vs' := by simpa using hfilter.symm.trans hfilter'
  have hunique : Relator.RightUnique IsItem := fun _ _ _ h h' => h.unique h'
  exact List.right_unique_forall₂' hunique hvs hvs'

/-- The body of a feed response is JSON that decodes to the feed exactly when
no owner and no image has a quotation mark, a reverse solidus or a control
character. Two such feeds never have the same body. -/
theorem feed_body_json_iff (items : List FeedItem) :
    (Decodes (Response.items (items.map FeedItem.description)).body items ↔
      ∀ i ∈ items, i.Clean) ∧
    ((∀ i ∈ items, i.Clean) → ∀ items' : List FeedItem, (∀ i ∈ items', i.Clean) →
      feedBody (items'.map FeedItem.description) = feedBody (items.map FeedItem.description) →
        items' = items) := by
  refine ⟨feedBody_decodes_iff items, ?_⟩
  intro hclean items' hclean' hbody
  obtain ⟨text, v, htext, hdenotes, hfeed⟩ := (feedBody_decodes_iff items).mpr hclean
  obtain ⟨text', v', htext', hdenotes', hfeed'⟩ := (feedBody_decodes_iff items').mpr hclean'
  obtain rfl : text' = text := bytes_inj.mp (htext'.symm.trans (hbody.trans htext))
  obtain rfl := hdenotes'.unique hdenotes
  exact hfeed'.unique hfeed

/-- An image can close its own item and add another one. -/
theorem feed_body_counterexample :
    ¬ (∀ items : List FeedItem, Decodes (feedBody (items.map FeedItem.description)) items) ∧
    ∃ items items' : List FeedItem, items ≠ items' ∧
      feedBody (items.map FeedItem.description) =
        feedBody (items'.map FeedItem.description) := by
  let forged : List FeedItem :=
    [("ann", "YQ==\"\x7d,\x7b\"owner\":\"bob\", \"image\": \"Yg==")]
  have hsame : feedBody (forged.map FeedItem.description) =
      feedBody ([("ann", "YQ=="), ("bob", "Yg==")].map FeedItem.description) := rfl
  refine ⟨fun h => ?_, forged, _, by simp [forged], hsame⟩
  have hclean := (feedBody_decodes_iff forged).mp (h forged)
  have hmark : '"' ∈ "YQ==\"\x7d,\x7b\"owner\":\"bob\", \"image\": \"Yg==".toList := by
    decide
  exact absurd ((hclean _ List.mem_cons_self).2 '"' hmark) (by decide)

end Img2Web
