import GrammarArt.Shader.Code

/-! # The complete shader of a tree

A shader consists of the inputs and the output of a pass over all pixels, the function
`art` that computes the color at a point, and the entry point that calls it for one pixel.
The inputs are a block of 64 bytes:

    offset  0   size: vec2<u32>
    offset  8   time: f32
    offset 12   pad: f32
    offset 16   vars: array<vec4<f32>, 3>     variable i at vars[i / 4][i % 4]

The output is one packed pixel of four bytes for each point, row by row, red in the lowest
byte.
-/
namespace GrammarArt.Shader

/-- The inputs and the output. -/
def bindings : String :=
  "struct Params \x7b
    size: vec2<u32>,
    time: f32,
    pad: f32,
    vars: array<vec4<f32>, 3>,
\x7d

@group(0) @binding(0) var<uniform> params: Params;
@group(0) @binding(1) var<storage, read_write> pixels: array<u32>;
"

/-- The entry point, and how a channel is made a byte. -/
def entryPoint : String :=
  "fn to_byte(c: f32) -> u32 \x7b
    return u32(floor((clamp(c, -1.0, 1.0) + 1.0) * 127.5 + 0.5));
\x7d

@compute @workgroup_size(8, 8, 1)
fn main(@builtin(global_invocation_id) id: vec3<u32>) \x7b
    if (id.x >= params.size.x || id.y >= params.size.y) \x7b
        return;
    \x7d
    let w = f32(params.size.x);
    let h = f32(params.size.y);
    let p = vec3<f32>(2.0 * f32(id.x) / w - 1.0, 2.0 * f32(id.y) / h - 1.0, params.time);
    let c = art(p);
    pixels[id.y * params.size.x + id.x] =
        to_byte(c.x) | (to_byte(c.y) << 8u) | (to_byte(c.z) << 16u) | (255u << 24u);
\x7d
"

end GrammarArt.Shader

namespace GrammarArt.Tree

/-- The function that computes the color of a tree at a point. -/
def artFunction (tree : Tree) : String :=
  let head := s!"fn art({Shader.pointName}: vec3<f32>) -> vec3<f32> " ++ "\x7b\n"
  let (body, name) := tree.appendCode head
  body ++ s!"    return {name};\n" ++ "\x7d\n"

/-- The complete shader of a tree. -/
def shader (tree : Tree) : String :=
  Shader.bindings ++ "\n" ++ tree.artFunction ++ "\n" ++ Shader.entryPoint

end GrammarArt.Tree
