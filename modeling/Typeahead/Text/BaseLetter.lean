namespace Typeahead.Text

/-- Each plain letter with its variants. -/
def letterVariants : List (Char × String) := [
  ('A', "ÀÁÂÃÄÅȺ"),
  ('B', "ƁɃʙ"),
  ('C', "ÇȻ"),
  ('D', "ƉƊ"),
  ('E', "ÈÉÊËƎƐɆ"),
  ('G', "Ɠɢʛ"),
  ('H', "ʜ"),
  ('I', "ÌÍÎÏİƗɪ"),
  ('J', "Ɉ"),
  ('L', "Ƚʟ"),
  ('M', "Ɯ"),
  ('N', "ÑƝȠɴ"),
  ('O', "ÒÓÔÕÖØƆƟ"),
  ('Q', "Ɋ"),
  ('R', "Ɍʀʁ"),
  ('T', "ƮȾ"),
  ('U', "ÙÚÛÜɄ"),
  ('V', "ƲɅ"),
  ('Y', "ÝŸɎʏ"),
  ('a', "àáâãäåāăąǎȁȃȧɐ"),
  ('b', "ƀƃɓ"),
  ('c', "çćĉċčƈȼɕʗ"),
  ('d', "ďđƌȡɖɗ"),
  ('e', "èéêëēĕėęěǝȅȇȩɇɘɛɜɝɞʚ"),
  ('f', "ƒ"),
  ('g', "ĝğġģǥǧǵɠɡ"),
  ('h', "ĥħȟɥɦʮ"),
  ('i', "ìíîïĩīĭįıǐȉȋɨ"),
  ('j', "ĵǰȷɉɟʝ"),
  ('k', "ķƙǩʞ"),
  ('l', "ĺļľŀłƚȴɫɬɭẖ"),
  ('m', "ɯɰɱ"),
  ('n', "ñńņňƞǹȵɲɳ"),
  ('o', "òóôõöøōŏőơǒǫȍȏȯɔɵ"),
  ('p', "ƥ"),
  ('q', "ɋʠ"),
  ('r', "ŕŗřȑȓɍɹɺɻɼɽɾɿ"),
  ('s', "ßśŝşšſșȿʂ"),
  ('t', "ţťŧƫƭțȶʇʈ"),
  ('u', "ùúûüũūŭůűųưǔȕȗʉ"),
  ('v', "ʋʌ"),
  ('w', "ŵʍ"),
  ('y', "ýÿŷƴȳɏʎ"),
  ('z', "źżžƶȥɀʐʑ")]

/-- The letters that U+0363 and the characters after it write above another one, in their order. -/
def raisedLetters : List Char := ['a', 'e', 'i', 'o', 'u', 'c', 'd', 'h', 'm', 'r', 't', 'v', 'x']

/-- The plain letter of a variant; any other character is its own. -/
def baseLetter (c : Char) : Char :=
  let n := c.toNat
  if n < 0x80 then c
  else if 0x363 ≤ n ∧ n ≤ 0x36f then raisedLetters.getD (n - 0x363) c
  else
    match letterVariants.find? fun (_, variants) => variants.toList.contains c with
    | some (plain, _) => plain
    | none => c

end Typeahead.Text
